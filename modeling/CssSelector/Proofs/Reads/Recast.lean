import CssSelector.Proofs.Reads.Edit

/-!
Phrases after an edit. What edited tokens are read as says the same but for the names that have
another text, and its mentions are the same ones at their new places (`Reads.recast`).
-/

set_option autoImplicit false

namespace CssSelector
namespace Parse

/-- The same mentions elsewhere, but for names. -/
def Relabelled (φ : String → String) (f : Nat → Nat) (ms ns : List Mention) : Prop :=
  ns.map (Mention.mapName φ) = (ms.map (Mention.move f)).map (Mention.mapName φ)

/-- Tokens are read as a phrase of the same form, with a piece of a tree that is the same where
names are `mapped`. -/
def RecastAs {α : Type} (φ : String → String) (f : Nat → Nat) (c' : Context) (phrase : α → Phrase)
    (mapped : α → α) (a : α) (zs : List Token) (ms : List Mention) : Prop :=
  ∃ a' ns, Reads c' zs (phrase a') ns ∧ mapped a' = mapped a ∧ Relabelled φ f ms ns

/-- White space in front of other rules belongs to the rule before them. -/
def Recast (φ : String → String) (f : Nat → Nat) (c' : Context) (zs : List Token)
    (ms : List Mention) : Phrase → Prop
  | .selector s => RecastAs φ f c' .selector (Selector.mapNames φ) s zs ms
  | .rules rs => ∃ s ys, zs = s ++ ys ∧ Spaces s ∧
    RecastAs φ f c' .rules (mapNamesOfRules φ) rs ys ms
  | .rule r => RecastAs φ f c' .rule (Rule.mapNames φ) r zs ms
  | .link is => RecastAs φ f c' .link (mapNamesOfItems φ) is zs ms
  | .links is => RecastAs φ f c' .links (mapNamesOfItems φ) is zs ms
  | .compound is => RecastAs φ f c' .compound (mapNamesOfItems φ) is zs ms
  | .items previous is => RecastAs φ f c' (.items previous) (mapNamesOfItems φ) is zs ms
  | .item i => RecastAs φ f c' .item (Item.mapNames φ) i zs ms
  | .argument category name a =>
    RecastAs φ f c' (.argument category name) (Option.map (Argument.mapNames φ)) a zs ms
  | .body g a => RecastAs φ f c' (.body g) (Argument.mapNames φ) a zs ms

section
variable {φ : String → String} {f : Nat → Nat} {c c' : Context} {e : Token → List Token}
  {z : Zone} {xs : List Token} {ms ns : List Mention}

namespace Relabelled

theorem nil : Relabelled φ f [] [] := rfl

theorem refl (ms : List Mention) : Relabelled φ f ms (ms.map (Mention.move f)) := rfl

theorem append {ms' ns' : List Mention} (h : Relabelled φ f ms ns) (h' : Relabelled φ f ms' ns') :
    Relabelled φ f (ms ++ ms') (ns ++ ns') := by
  unfold Relabelled at *
  simp only [List.map_append, h, h']

theorem cons {m n : Mention} (hm : n.mapName φ = (m.move f).mapName φ) (h : Relabelled φ f ms ns) :
    Relabelled φ f (m :: ms) (n :: ns) :=
  congrArg₂ List.cons hm h

end Relabelled

theorem Reads.items_of_mapNames {previous previous' : Option Item} {is : List Item}
    (h : Reads c xs (.items previous is) ms)
    (hp : previous'.map (Item.mapNames φ) = previous.map (Item.mapNames φ)) :
    Reads c xs (.items previous' is) ms := by
  cases h with
  | noItems => exact .noItems
  | @items _ _ _ k _ _ _ _ hi hk hx hy =>
    refine .items hi ?_ hx hy
    rwa [← k.mayFollow_mapNames φ, hp, k.mayFollow_mapNames]

theorem Reads.argument_of_mapName (hφ : Folds φ) {category : Category} {name name' : String}
    {a : Option Argument} (h : Reads c xs (.argument category name a) ms) (hn : φ name' = φ name) :
    Reads c xs (.argument category name' a) ms := by
  have hσ := hφ.signature?_eq (d := c.dialect) category hn
  cases h with
  | bare h hb => exact .bare (hσ.trans h) hb
  | argument h hg ho hx ht => exact .argument (hσ.trans h) hg ho hx ht
  | bareUnknown h => exact .bareUnknown (hσ.trans h)
  | loose h ho hx ht hs => exact .loose (hσ.trans h) ho hx ht hs

theorem Edits.compound_head {is : List Item} (E : Edits c c' φ f e z xs) (hz : z.Open)
    (h : Reads c xs (.compound is) ms) :
    (c'.front (xs.flatMap e)).position = f (c.front xs).position := by
  obtain ⟨t, ys, k, rfl, ht⟩ := h.compound_head
  obtain ⟨z', hnext⟩ : ∃ z', Zone.inSelector t = (.plain, z') := by
    rcases k with _ | _ | _ | _ | _ | ⟨_ | _⟩ <;> rw [Zone.inSelector, ht] <;> exact ⟨_, rfl⟩
  rw [(E.cons_of_plain hz (ht ▸ k.kind_ne_leftParen) hnext).1]
  rfl

namespace Recast
variable {X Y us vs : List Token}

theorem selector {s : List Token} {r : Rule} {rs : List Rule} (hs : Spaces s)
    (hx : Recast φ f c' X ms (.rule r)) (hy : Recast φ f c' Y ns (.rules rs)) :
    Recast φ f c' (s.map (Token.move f) ++ (X ++ Y)) (ms ++ ns) (.selector ⟨r :: rs⟩) := by
  obtain ⟨r', ms', hX, hr, hm⟩ := hx
  obtain ⟨s', ys', rfl, hs', rs', ns', hY, hrs, hn⟩ := hy
  refine ⟨⟨r' :: rs'⟩, ms' ++ ns', ?_, congrArg Selector.mk (congrArg₂ List.cons hr hrs),
    hm.append hn⟩
  rw [← List.append_assoc X]
  exact .selector hs.move (hX.rule_append_spaces hs') hY

theorem rules {t : Token} {s : List Token} {r : Rule} {rs : List Rule} (ht : t.kind = .comma)
    (he : Edit φ f .separator t us) (hs : Spaces s) (hx : Recast φ f c' X ms (.rule r))
    (hy : Recast φ f c' Y ns (.rules rs)) :
    Recast φ f c' (us ++ (s.map (Token.move f) ++ (X ++ Y))) (ms ++ ns) (.rules (r :: rs)) := by
  obtain ⟨r', ms', hX, hr, hm⟩ := hx
  obtain ⟨s', ys', rfl, hs', rs', ns', hY, hrs, hn⟩ := hy
  obtain @⟨s₁, s₂, text, hs₁, hs₂, -, -, -⟩ := he
  -- what is new in front of the comma is left to the rule before it
  have hread := Reads.rules (t := ⟨t.kind, text, f t.position⟩) ht
    (Spaces.append_iff.2 ⟨hs₂, hs.move (f := f)⟩) (hX.rule_append_spaces hs') hY
  exact ⟨s₁, _, by simp, hs₁, r' :: rs', _, hread, congrArg₂ List.cons hr hrs, hm.append hn⟩

theorem combinator {t : Token} {k : Combinator} {s₁ s₂ : List Token} {is : List Item}
    (hs₁ : Spaces s₁) (ht : t.kind = .combinator) (hk : Combinator.ofSymbol? t.text = some k)
    (he : Edit φ f .separator t us) (hs₂ : Spaces s₂) (hx : Recast φ f c' X ms (.compound is)) :
    Recast φ f c' (s₁.map (Token.move f) ++ (us ++ (s₂.map (Token.move f) ++ X)))
      (⟨.combinator k, t.position⟩ :: ms) (.link (.combinator k :: is)) := by
  obtain ⟨is', ms', hX, his, hm⟩ := hx
  obtain @⟨s, s', text, hs, hs', -, -, hkeeps⟩ := he
  obtain rfl : text = t.text := hkeeps
  have hread := Reads.combinator (t := t.move f) (Spaces.append_iff.2 ⟨hs₁.move (f := f), hs⟩)
    ht hk (Spaces.append_iff.2 ⟨hs', hs₂.move (f := f)⟩) hX
  refine ⟨.combinator k :: is', _, ?_, congrArg (_ :: ·) his, hm.cons rfl⟩
  simpa [Token.move, Mention.move] using hread

theorem items {previous : Option Item} {i : Item} {is : List Item} {k : ItemStart}
    (hi : i.start? = some k) (hk : k.mayFollow previous) (hx : Recast φ f c' X ms (.item i))
    (hy : Recast φ f c' Y ns (.items (some i) is)) :
    Recast φ f c' (X ++ Y) (ms ++ ns) (.items previous (i :: is)) := by
  obtain ⟨i', ms', hX, hi', hm⟩ := hx
  obtain ⟨is', ns', hY, his, hn⟩ := hy
  have hstart : i'.start? = some k := by
    rw [← i'.start?_mapNames φ, hi', i.start?_mapNames, hi]
  have hrest : Reads c' Y (.items (some i') is') ns' := hY.items_of_mapNames (congrArg some hi')
  exact ⟨i' :: is', ms' ++ ns', .items hstart hk hX hrest, congrArg₂ List.cons hi' his, hm.append hn⟩

theorem pseudo (hφ : Folds φ) {o t : Token} {category : Category} {a : Option Argument}
    (ho : o.kind.itemStart? = some (.pseudo category)) (ht : t.kind = .ident) (hne : t.text ≠ "")
    (he : Edit φ f .name t us) (hx : Recast φ f c' X ms (.argument category t.text a)) :
    Recast φ f c' (o.move f :: (us ++ X)) (⟨.pseudo category t.text, t.position⟩ :: ms)
      (.item (.pseudo category t.text a)) := by
  obtain ⟨a', ms', hX, ha, hm⟩ := hx
  obtain ⟨text, rfl, htext⟩ := he.exists_of_not_spaced (by decide) (by decide)
  have hread := Reads.pseudo (o := o.move f) (t := ⟨t.kind, text, f t.position⟩) ho ht
    (hφ.ne_empty htext hne) (hX.argument_of_mapName hφ htext)
  have hlabel : Mention.mapName φ ⟨.pseudo category text, f t.position⟩ =
      Mention.mapName φ ⟨.pseudo category t.text, f t.position⟩ :=
    congrArg (fun name => Mention.mk (.pseudo category name) (f t.position)) htext
  refine ⟨.pseudo category text a', _, hread, ?_, hm.cons hlabel⟩
  rw [Item.mapNames_pseudo, Item.mapNames_pseudo, htext, ha]

theorem argument {category : Category} {name : String} {σ : Signature} {g : ArgumentGrammar}
    {o t : Token} {a : Argument} (hσ : c'.dialect.signature? category name = some σ)
    (hg : σ.argument = some g) (ho : o.kind = .leftParen) (ht : t.kind = .rightParen)
    (he : Edit φ f .opening o us) (he' : Edit φ f .closing t vs)
    (hx : Recast φ f c' X ms (.body g a)) :
    Recast φ f c' (us ++ (X ++ vs)) ms (.argument category name (some a)) := by
  obtain ⟨a', ms', hX, ha, hm⟩ := hx
  -- white space is only inside of the parentheses, where it belongs to what they hold
  obtain @⟨s₁, s, text, -, hs, hnone, -, -⟩ := he
  obtain @⟨s', s₂, text', hs', -, -, hnone', -⟩ := he'
  obtain rfl : s₁ = [] := not_not.1 (mt hnone (by decide))
  obtain rfl : s₂ = [] := not_not.1 (mt hnone' (by decide))
  have hread := Reads.argument (o := ⟨o.kind, text, f o.position⟩)
    (t := ⟨t.kind, text', f t.position⟩) hσ hg ho (hX.body_spaces hs hs') ht
  refine ⟨some a', ms', ?_, congrArg some ha, hm⟩
  simpa using hread

theorem formulaOf {w t : Token} {a : Formula} {s : Selector} (hx : ReadsFormula (xs ++ [w]) a)
    (he : ∀ u ∈ xs ++ [w], Edit φ f .formula u (e u)) (hw : w.kind = .whitespace)
    (ht : t.kind = .ident) (hof : Text.sameLetters t.text "of") (he' : Edit φ f .keyword t us)
    (hy : Recast φ f c' Y ms (.selector s)) :
    Recast φ f c' ((xs ++ [w]).flatMap e ++ (us ++ Y)) ms
      (.body .formulaOfSelector (.formulaOfSelector a (some s))) := by
  obtain ⟨s', ms', hY, hs, hm⟩ := hy
  obtain ⟨text, rfl, htext⟩ := he'.exists_of_not_spaced (by decide) (by decide)
  obtain ⟨v, hew, -⟩ := (he w (by simp)).exists_of_not_spaced (by decide) (by decide)
  have hread := hx.edit he
  rw [List.flatMap_append, List.flatMap_singleton, hew] at hread ⊢
  have hof' : Text.sameLetters text "of" := by
    rw [Text.sameLetters, show Text.fold text = Text.fold t.text from htext]
    exact hof
  have hall := Reads.formulaOf (w := ⟨w.kind, v, f w.position⟩) (t := ⟨t.kind, text, f t.position⟩)
    hread hw ht hof' hY
  refine ⟨.formulaOfSelector a (some s'), ms', ?_,
    congrArg (Argument.formulaOfSelector a ∘ some) hs, hm⟩
  simpa using hall

end Recast

theorem Reads.recast {p : Phrase} (h : Reads c xs p ms) (hφ : Folds φ)
    (hσ : ∀ category name,
      c'.dialect.signature? category name = c.dialect.signature? category name)
    (hz : p.Starts z) (E : Edits c c' φ f e z xs) : Recast φ f c' (xs.flatMap e) ms p := by
  induction h generalizing z with
  | @selector s xs ys r rs ms ns hs hx hy ihx ihy =>
    have hz₁ := (Zone.Open.spaces (d := c.dialect) hz hs).1
    rw [List.flatMap_append, E.left.flatMap_spaces hz hs, List.flatMap_append]
    exact .selector hs (ihx hz₁ E.right.left) (ihy (hx.ends hz₁) E.right.right)
  | noRules => exact ⟨[], [], rfl, .nil, [], [], .noRules, rfl, .nil⟩
  | @rules t s xs ys r rs ms ns ht hs hx hy ihx ihy =>
    have hz₁ := (Zone.open_selector.spaces (d := c.dialect) hs).1
    obtain ⟨hedit, E₁⟩ := E.cons_of_open hz (by simp [ht]) (by rw [Zone.inSelector, ht])
    rw [List.flatMap_cons, List.flatMap_append, E₁.left.flatMap_spaces Zone.open_selector hs,
      List.flatMap_append]
    exact .rules ht hedit hs (ihx hz₁ E₁.right.left) (ihy (hx.ends hz₁) E₁.right.right)
  | @rule s xs ys is js ms ns hx hy hs ihx ihy =>
    obtain ⟨is', ms', hX, his, hm⟩ := ihx hz E.left
    obtain ⟨js', ns', hY, hjs, hn⟩ := ihy (hx.ends hz) E.right.left
    have hz₁ := hy.ends (hx.ends hz)
    refine ⟨⟨is' ++ js'⟩, ms' ++ ns', ?_, ?_, hm.append hn⟩
    · rw [List.flatMap_append, List.flatMap_append, E.right.right.flatMap_spaces hz₁ hs]
      exact .rule hX hY hs.move
    · rw [Rule.mapNames, Rule.mapNames, mapNamesOfItems_append, mapNamesOfItems_append, his, hjs]
  | noLinks => exact ⟨[], [], .noLinks, rfl, .nil⟩
  | @links xs ys is js ms ns hx hy ihx ihy =>
    obtain ⟨is', ms', hX, his, hm⟩ := ihx hz E.left
    obtain ⟨js', ns', hY, hjs, hn⟩ := ihy (hx.ends hz) E.right
    refine ⟨is' ++ js', ms' ++ ns', ?_, ?_, hm.append hn⟩
    · rw [List.flatMap_append]
      exact .links hX hY
    · rw [mapNamesOfItems_append, mapNamesOfItems_append, his, hjs]
  | @descendant s xs is ms hs hne hx ih =>
    have hz₁ := (Zone.Open.spaces (d := c.dialect) hz hs).1
    obtain ⟨is', ms', hX, his, hm⟩ := ih hz₁ E.right
    have hread := Reads.descendant (hs.move (f := f)) (by simpa using hne) hX
    rw [E.right.compound_head hz₁ hx] at hread
    refine ⟨.combinator .descendant :: is', _, ?_, congrArg (_ :: ·) his, hm.cons rfl⟩
    rw [List.flatMap_append, E.left.flatMap_spaces hz hs]
    exact hread
  | @combinator t k s₁ s₂ xs is ms hs₁ ht hk hs₂ hx ih =>
    have hz₁ := (Zone.Open.spaces (d := c.dialect) hz hs₁).1
    have hz₂ := (Zone.open_selector.spaces (d := c.dialect) hs₂).1
    obtain ⟨hedit, E₁⟩ := E.right.cons_of_open hz₁ (by simp [ht]) (by rw [Zone.inSelector, ht])
    rw [List.flatMap_append, E.left.flatMap_spaces hz hs₁, List.flatMap_cons, List.flatMap_append,
      E₁.left.flatMap_spaces Zone.open_selector hs₂]
    exact .combinator hs₁ ht hk hedit hs₂ (ih hz₂ E₁.right)
  | @compound xs is ms hne hx ih =>
    obtain ⟨is', ms', hX, his, hm⟩ := ih hz E
    refine ⟨is', ms', .compound ?_ hX, his, hm⟩
    rwa [ne_eq, ← mapNamesOfItems_eq_nil φ, his, mapNamesOfItems_eq_nil]
  | noItems => exact ⟨[], [], .noItems, rfl, .nil⟩
  | items hi hk hx _ ihx ihy =>
    rw [List.flatMap_append]
    exact .items hi hk (ihx hz E.left) (ihy (hx.ends hz) E.right)
  | @tagName t ht hne =>
    rw [(E.cons_of_plain hz (by simp [ht]) (by rw [Zone.inSelector, ht])).1]
    exact ⟨_, _, .tagName (t := t.move f) ht hne, rfl, .nil⟩
  | @universal t ht =>
    rw [(E.cons_of_plain hz (by simp [ht]) (by rw [Zone.inSelector, ht])).1]
    exact ⟨_, _, .universal (t := t.move f) ht, rfl, .nil⟩
  | @className o t ho ht hne =>
    obtain ⟨hdot, E₁⟩ := E.cons_of_plain hz (by simp [ho]) (by rw [Zone.inSelector, ho])
    rw [hdot, (E₁.cons_of_plain Zone.open_selector (by simp [ht]) (by rw [Zone.inSelector, ht])).1]
    exact ⟨_, _, .className (o := o.move f) (t := t.move f) ho ht hne, rfl, .nil⟩
  | @idName t ht hne =>
    rw [(E.cons_of_plain hz (by simp [ht]) (by rw [Zone.inSelector, ht])).1]
    exact ⟨_, _, .idName (t := t.move f) ht hne, rfl, .nil⟩
  | @«attribute» o xs a ms ho hx =>
    obtain ⟨hbracket, E₁⟩ := E.cons_of_plain hz (by simp [ho]) (by rw [Zone.inSelector, ho])
    rw [hbracket]
    exact ⟨.attribute a, _, .attribute (o := o.move f) ho (hx.edit E₁), rfl, .refl ms⟩
  | @pseudo o t category xs a ms ho ht hne hx ih =>
    obtain ⟨hcolon, E₁⟩ := E.cons (Zone.Open.next_colons hz ho)
    obtain ⟨hname, E₂⟩ := E₁.cons (if_pos ht)
    rw [List.flatMap_cons, List.flatMap_cons, hcolon.eq_of_fixed (.inl rfl), List.singleton_append]
    exact .pseudo hφ ho ht hne hname (ih rfl E₂)
  | bare h hb => exact ⟨none, [], .bare ((hσ _ _).trans h) hb, rfl, .nil⟩
  | @argument category name σ g o t xs a ms h hg ho hx ht ih =>
    cases hz
    obtain ⟨hedit, E₁⟩ := E.cons (Zone.next_opening h hg ho)
    obtain ⟨hedit', -⟩ := E₁.right.cons (hx.ends rfl t ht)
    rw [List.flatMap_cons, List.flatMap_append, List.flatMap_singleton]
    exact .argument ((hσ _ _).trans h) hg ho ht hedit hedit' (ih rfl E₁.left)
  | bareUnknown h => exact ⟨none, [], .bareUnknown ((hσ _ _).trans h), rfl, .nil⟩
  | @loose category name o t xs text h ho hx ht hs =>
    cases hz
    obtain ⟨us, hroles, hloose⟩ := hx.roles_argument h ho ht
    have hkept := E.kept (o, .loose) us (hroles ▸ List.infix_rfl) ho hloose
    rw [← hroles, Zone.map_fst_roles] at hkept
    rw [E.flatMap_eq fun a ha => .inr (.inr (hloose a (hroles ▸ ha)))]
    exact ⟨_, _, (Reads.loose h ho hx ht hs).move hkept hσ, rfl, .refl []⟩
  | selectorBody hx ih =>
    cases hz
    obtain ⟨s', ms', hX, hs, hm⟩ := ih (z := .selector) Zone.open_selector E
    exact ⟨.selector s', ms', .selectorBody hX, congrArg Argument.selector hs, hm⟩
  | formula hx =>
    cases hz
    exact ⟨_, _, .formula (hx.edit (E.of_roles hx.after.1.2)), rfl, .nil⟩
  | formulaAlone hx =>
    cases hz
    exact ⟨_, _, .formulaAlone (hx.edit (E.of_roles (hx.after.2 _).2)), rfl, .nil⟩
  | @formulaOf xs ys w t a s ms hx hw ht hof hy ih =>
    cases hz
    have hsplit : xs ++ w :: t :: ys = xs ++ [w] ++ t :: ys := by simp
    rw [hsplit] at E ⊢
    have hzone : (Zone.formulaOf .leftParen).after c.dialect (xs ++ [w]) = .formulaOf .whitespace := by
      rw [(hx.after.2 _).1, lastKind_append, hw]
    have hformula := E.left.of_roles (hx.after.2 .leftParen).2
    have E₁ := E.right
    rw [Zone.ofGrammar, hzone] at E₁
    obtain ⟨hedit, E₂⟩ := E₁.cons (Zone.next_keyword ht hof)
    rw [List.flatMap_append, List.flatMap_cons]
    exact .formulaOf hx hformula hw ht hof hedit (ih (z := .selector) Zone.open_selector E₂)
  | string hx =>
    cases hz
    exact ⟨_, _, .string (hx.edit (by decide) E), rfl, .nil⟩
  | identifier hx =>
    cases hz
    exact ⟨_, _, .identifier (hx.edit (by decide) E), rfl, .nil⟩
  | number hx hv =>
    cases hz
    exact ⟨_, _, .number (hx.edit (by decide) E) hv, rfl, .nil⟩

/-- What is edited in no name is read as the same selector. -/
theorem Reads.edit {T : Selector} (h : Reads c xs (.selector T) ms)
    (hσ : ∀ category name,
      c'.dialect.signature? category name = c.dialect.signature? category name)
    (E : Edits c c' id f e .selector xs) :
    Reads c' (xs.flatMap e) (.selector T) (ms.map (Mention.move f)) := by
  have hstarts : (Phrase.selector T).Starts .selector := Zone.open_selector
  obtain ⟨T', ns, hread, hT, hn⟩ := h.recast folds_id hσ hstarts E
  rw [Selector.mapNames_id, Selector.mapNames_id] at hT
  simp only [Relabelled, Mention.mapName_id, List.map_id] at hn
  exact hT ▸ hn ▸ hread

end
end Parse
end CssSelector
