import CssSelector.Proofs.Spells

/-!
Whole trees that are written out. From its items to its rules a tree is read back as it was written,
and by recursion so are the selectors inside of it (`Dialect.parse_written`).
-/

set_option autoImplicit false

namespace CssSelector

/-- The selector is well formed with items that can be written, and so is every one inside of it. -/
def Selector.Writable (d : Dialect) (whole : Selector) : Prop :=
  ∀ s, whole.Inside s → s.WellFormed ∧ ∀ r ∈ s.rules, ∀ i ∈ r.items, i.Writable d

theorem Selector.writable_iff {d : Dialect} {s : Selector} : s.Writable d ↔
    s.WellFormed ∧ ∀ r ∈ s.rules, ∀ i ∈ r.items, i.Writable d ∧
      ∀ t, i.selector? = some t → t.Writable d := by
  constructor
  · intro h
    obtain ⟨hs, hw⟩ := h s .whole
    exact ⟨hs, fun r hr i hi => ⟨hw r hr i hi, fun t ht u hu =>
      h u (.trans (.argument .whole hr hi ht) hu)⟩⟩
  · rintro ⟨hs, hw⟩ t ht
    rcases inside_iff.1 ht with rfl | ⟨r, hr, i, hi, u, hu, ht⟩
    · exact ⟨hs, fun r hr i hi => (hw r hr i hi).1⟩
    · exact (hw r hr i hi).2 u hu t ht

theorem Item.Simple.exists_mayFollow {i : Item} {previous : Option Item} (hs : i.Simple)
    (ht : i.isType → previous = none) (hp : ∀ p ∈ previous, ¬p.isPseudoElement) :
    ∃ k, i.start? = some k ∧ k.mayFollow previous := by
  have hlast : previous.bind Item.start? ≠ some (.pseudo .pseudoElement) := by
    intro h
    obtain ⟨p, hprevious, hstart⟩ := Option.bind_eq_some_iff.1 h
    refine hp p hprevious ?_
    cases p <;> cases hstart
    rfl
  cases i with
  | tagName | universal =>
    obtain rfl := ht rfl
    exact ⟨_, rfl, rfl⟩
  | className | idName | «attribute» | pseudo =>
    exact ⟨_, rfl, ItemStart.mayFollow_of_ne (by simp) (by simp) hlast⟩
  | combinator => exact hs.elim

namespace Parse

open Text Scan

/-- The item can be written, and the selector in its argument is read as it was. -/
structure Written (c : Context) (i : Item) : Prop where
  writable : i.Writable c.dialect
  nested : ∀ s, i.selector? = some s → SpellsTree c s

section
variable {c : Context} {us cs ds : List Char}

theorem Spells.append {p q r : Phrase} (h : Spells c (ds ++ us) cs p) (k : Spells c us ds q)
    (hr : ∀ {xs ys ms ns}, Reads c xs p ms → Reads c ys q ns → Reads c (xs ++ ys) r (ms ++ ns)) :
    Spells c us (cs ++ ds) r := by
  intro n
  obtain ⟨xs, ms, hx, hp, hm⟩ := h n
  obtain ⟨ys, ns, hy, hq, hn⟩ := k (n + byteSize cs)
  exact ⟨_, _, hx.append hy, hr hp hq, hm.append hn⟩

theorem spells_items {is : List Item} {previous : Option Item}
    (h : (Phrase.items previous is).WellFormed) (hw : ∀ i ∈ is, Written c i) (hu : EndsItem us) :
    Spells c us (writtenItems is) (.items previous is) := by
  induction is generalizing previous with
  | nil => exact fun n => ⟨[], [], .nil n us, .noItems, .nil⟩
  | cons i is ih =>
    obtain ⟨hs, ht, htail, hp⟩ := h
    obtain ⟨hi, his⟩ := List.forall_mem_cons.1 hs
    obtain ⟨hwi, hwis⟩ := List.forall_mem_cons.1 hw
    rw [List.dropLast_append_of_ne_nil (List.cons_ne_nil i is)] at hp
    have hprevious : ∀ p ∈ previous, ¬p.isPseudoElement := fun p hmem =>
      hp p (List.mem_append_left _ (Option.mem_toList.2 hmem))
    obtain ⟨k, hk, hf⟩ := hi.exists_mayFollow (ht i List.mem_cons_self) hprevious
    have hrest : (Phrase.items (some i) is).WellFormed :=
      ⟨his, fun j hj hjt => absurd hjt (htail j hj),
        fun j hj => htail j (List.mem_of_mem_tail hj),
        fun j hj => hp j (List.mem_append_right _ hj)⟩
    -- Only the first item of a compound can be a type selector, so that the next one starts with a
    -- mark.
    have hbehind : EndsItem (writtenItems is ++ us) := by
      cases is with
      | nil => exact hu
      | cons j js =>
        rw [writtenItems, List.append_assoc]
        exact endsItem_written (his j List.mem_cons_self) (htail j List.mem_cons_self) _
    exact (spells_item hi hwi.writable hwi.nested hbehind).append (ih hrest hwis) (.items hk hf)

theorem spells_compound {is : List Item} (h : IsCompound is) (hw : ∀ i ∈ is, Written c i)
    (hu : EndsItem us) : Spells c us (writtenItems is) (.compound is) := by
  have hitems : (Phrase.items none is).WellFormed :=
    ⟨h.simple, fun _ _ _ => rfl, h.type_first, h.pseudoElement_last⟩
  intro n
  obtain ⟨ts, ms, hx, hr, hp⟩ := spells_items hitems hw hu n
  exact ⟨ts, ms, hx, .compound h.nonempty hr, hp⟩

theorem opensItem_writtenItems {is : List Item} (h : IsCompound is)
    (hw : ∀ i ∈ is, Written c i) : OpensItem (writtenItems is) := by
  cases is with
  | nil => exact absurd rfl h.nonempty
  | cons i is =>
    exact (opensItem_written (h.simple i List.mem_cons_self)
      (hw i List.mem_cons_self).writable).append _

theorem spells_link {k : Combinator} {is : List Item} (hk : c.dialect.recognises (.combinator k))
    (h : IsCompound is) (hw : ∀ i ∈ is, Written c i) (hu : EndsItem us) :
    Spells c us (writtenItems (.combinator k :: is)) (.link (.combinator k :: is)) := by
  intro n
  have hsymbol : Lexes n k.symbol.toList [⟨k.tokenKind, k.symbol, n⟩] (writtenItems is ++ us) :=
    .token (by cases k <;> simp [Combinator.tokenKind])
      (token_combinator k ((opensItem_writtenItems h hw).append us))
  obtain ⟨ts, ms, hx, hr, hp⟩ := spells_compound h hw hu (n + byteSize k.symbol.toList)
  cases k with
  | descendant =>
    have hspace : Spaces [⟨.whitespace, " ", n⟩] := Spaces.cons_iff.2 ⟨rfl, .nil⟩
    exact ⟨_, _, hsymbol.append hx, .descendant hspace (by simp) hr,
      (Dialect.Passes.of_recognises hk).cons hp⟩
  | _ =>
    exact ⟨_, _, hsymbol.append hx, .combinator .nil rfl rfl .nil hr,
      (Dialect.Passes.of_recognises hk).cons hp⟩

theorem exists_spells_of_chain {is : List Item} (h : IsChain is) (hw : ∀ i ∈ is, Written c i)
    (hu : EndsItem us) :
    ∃ js ks, is = js ++ ks ∧ IsCompound js ∧ EndsItem (writtenItems ks ++ us) ∧
      Spells c us (writtenItems ks) (.links ks) := by
  induction h with
  | @compound is his =>
    exact ⟨is, [], by simp, his, hu, fun n => ⟨[], [], .nil n us, .noLinks, .nil⟩⟩
  | @combinator is js k his _ ih =>
    obtain ⟨hwis, hwk⟩ := List.forall_mem_append.1 hw
    obtain ⟨hk, hwjs⟩ := List.forall_mem_cons.1 hwk
    obtain ⟨js, ks, rfl, hjs, hbehind, hks⟩ := ih hwjs
    obtain ⟨hwj, -⟩ := List.forall_mem_append.1 hwjs
    refine ⟨is, _, rfl, his, ?_, ?_⟩
    · rw [writtenItems, List.append_assoc]
      exact endsItem_combinator k _
    · have hlink := spells_link hk.writable hjs hwj hbehind
      rw [← List.cons_append, writtenItems_append]
      exact hlink.append hks .links

theorem spells_rule {r : Rule} (h : IsChain r.items) (hw : ∀ i ∈ r.items, Written c i)
    (hu : EndsItem us) : OpensItem r.written ∧ Spells c us r.written (.rule r) := by
  obtain ⟨is⟩ := r
  obtain ⟨js, ks, rfl, hjs, hbehind, hks⟩ := exists_spells_of_chain h hw hu
  obtain ⟨hwj, -⟩ := List.forall_mem_append.1 hw
  rw [Rule.written, writtenItems_append]
  refine ⟨(opensItem_writtenItems hjs hwj).append _, ?_⟩
  refine (spells_compound hjs hwj hbehind).append hks fun hx hy => ?_
  simpa using hx.rule hy .nil

theorem EndsTree.endsItem (h : EndsTree us) : EndsItem us := by
  intro u hu
  simp [h u hu]

theorem endsItem_writtenRules (rs : List Rule) (hu : EndsTree us) :
    EndsItem (writtenRules rs ++ us) := by
  cases rs with
  | nil => exact hu.endsItem
  | cons r rs =>
    rintro u ⟨⟩
    simp

theorem spells_rules {rs : List Rule} (h : ∀ r ∈ rs, IsChain r.items)
    (hw : ∀ r ∈ rs, ∀ i ∈ r.items, Written c i) (hu : EndsTree us) :
    Spells c us (writtenRules rs) (.rules rs) := by
  induction rs with
  | nil => exact fun n => ⟨[], [], .nil n us, .noRules, .nil⟩
  | cons r rs ih =>
    obtain ⟨hr, hrs⟩ := List.forall_mem_cons.1 h
    obtain ⟨hwr, hwrs⟩ := List.forall_mem_cons.1 hw
    obtain ⟨-, hrule⟩ := spells_rule hr hwr (endsItem_writtenRules rs hu)
    intro n
    have hcomma : Lexes n [','] [⟨.comma, ",", n⟩] (r.written ++ writtenRules rs ++ us) :=
      .token (by simp) rfl
    obtain ⟨xs, ms, hx, hp, hm⟩ := hrule (n + byteSize [','])
    obtain ⟨ys, ns, hy, hq, hn⟩ := ih hrs hwrs (n + byteSize [','] + byteSize r.written)
    exact ⟨_, _, hcomma.append (hx.append hy), .rules rfl .nil hp hq, hm.append hn⟩

theorem spellsTree {s : Selector} (h : s.WellFormed)
    (hw : ∀ r ∈ s.rules, ∀ i ∈ r.items, Written c i) : SpellsTree c s := by
  obtain ⟨_ | ⟨r, rs⟩⟩ := s
  · exact absurd rfl h.nonempty
  · obtain ⟨hr, hrs⟩ := List.forall_mem_cons.1 h.chains
    obtain ⟨hwr, hwrs⟩ := List.forall_mem_cons.1 hw
    have hnil : EndsItem [] := by simp [EndsItem]
    obtain ⟨hopen, -⟩ := spells_rule hr hwr hnil
    rw [SpellsTree, Selector.written]
    refine ⟨hopen.append _, fun us hu => ?_⟩
    obtain ⟨-, hrule⟩ := spells_rule hr hwr (endsItem_writtenRules rs hu)
    exact hrule.append (spells_rules hrs hwrs hu) (.selector .nil)

end

end Parse

/-- By recursion into arguments, where selectors are smaller. -/
theorem Selector.Writable.spellsTree {c : Parse.Context} {s : Selector}
    (h : s.Writable c.dialect) : Parse.SpellsTree c s := by
  obtain ⟨hs, hw⟩ := writable_iff.1 h
  refine Parse.spellsTree hs fun r hr i hi => ⟨(hw r hr i hi).1, fun t ht => ?_⟩
  exact Selector.Writable.spellsTree ((hw r hr i hi).2 t ht)
termination_by sizeOf s
decreasing_by exact Selector.sizeOf_lt_of_selector? hr hi ht

namespace Dialect

/-- A tree that is written out is parsed to the same tree, and there is nothing to warn of. -/
theorem parse_written {d : Dialect} {T : Selector} (h : T.Writable d) :
    d.parse (String.ofList T.written) = .ok ⟨T, []⟩ := by
  let c : Parse.Context := ⟨d, (String.ofList T.written).toList⟩
  obtain ⟨-, hspells⟩ := h.spellsTree (c := c)
  obtain ⟨ts, ms, hx, hr, hp⟩ := hspells [] (by simp [Parse.EndsTree]) 0
  rw [← String.toList_ofList (l := T.written)] at hx
  refine parse_eq_ok.2 ⟨_, hx.tokenize_eq, ms, ?_, hp⟩
  rwa [List.dropLast_concat]

/-- A name may be a keyword, or nothing but marks, and a negative constant may have ten digits. -/
theorem parse_written_of_nested :
    let classes : NameMap Signature := .insert .empty "nth" (.optional .formulaOfSelector)
    let elements : NameMap Signature := .insert .empty "part" (.required .string)
    let d : Dialect := ⟨classes, elements, .reject, .reject, ⟨[.contains], ["i"], .reject⟩,
      ⟨[.descendant, .child], .reject⟩⟩
    let inner : Selector :=
      ⟨[⟨[.className " é", .pseudo .pseudoElement "part" (some (.string "\"\n"))]⟩]⟩
    let nth : Item :=
      .pseudo .pseudoClass "NTH" (some (.formulaOfSelector ⟨-1, -2147483647⟩ (some inner)))
    let whole : Selector := ⟨[⟨[.tagName "of", .combinator .descendant, .universal,
      .attribute ⟨"]", some .contains, some "", some "I"⟩, .combinator .child, nth]⟩, ⟨[nth]⟩]⟩
    whole.Writable d ∧ d.parse (String.ofList whole.written) = .ok ⟨whole, []⟩ := by
  intro classes elements d inner nth whole
  have hpart : d.signature? .pseudoElement "part" = some (.required .string) := by rfl
  have hnth : d.signature? .pseudoClass "NTH" = some (.optional .formulaOfSelector) := by rfl
  have hcontains : d.recognises (.operator .contains) := by rfl
  have hi : d.recognises (.modifier "I") := by rfl
  have hdescendant : d.recognises (.combinator .descendant) := by rfl
  have hchild : d.recognises (.combinator .child) := by rfl
  have hinner : inner.Writable d := by
    refine Selector.writable_iff.2 ⟨⟨by simp [inner], ?_⟩, ?_⟩
    · have hcompound : IsCompound [.className " é", .pseudo .pseudoElement "part"
          (some (.string "\"\n"))] := by
        constructor <;> simp [Item.Simple, Item.isType, Item.isPseudoElement]
      simpa [inner] using IsChain.compound hcompound
    · simp [inner, Item.Writable, Item.selector?, hpart, Signature.Allows, Signature.required,
        Argument.grammar, Argument.Writable, Escapable]
  have hpair : nth.Writable d ∧ ∀ t, nth.selector? = some t → t.Writable d := by
    constructor
    · simp [nth, Item.Writable, hnth, Signature.Allows, Signature.optional, Argument.grammar,
        Argument.Writable, Escapable, Formula.Writable]
    · rintro t ⟨⟩
      exact hinner
  have hwhole : whole.Writable d := by
    have hfirst : IsCompound [.tagName "of"] := by
      constructor <;> simp [Item.Simple]
    have hsecond :
        IsCompound [.universal, .attribute ⟨"]", some .contains, some "", some "I"⟩] := by
      constructor <;> simp [Item.Simple, Item.isType, Item.isPseudoElement]
    have hthird : IsCompound [nth] := by
      constructor <;> simp [nth, Item.Simple]
    refine Selector.writable_iff.2 ⟨⟨by simp [whole], ?_⟩, ?_⟩
    · simpa [whole] using
        ⟨IsChain.combinator hfirst (.combinator hsecond (.compound hthird)), .compound hthird⟩
    · have hattribute : Attribute.Writable d ⟨"]", some .contains, some "", some "I"⟩ := by
        constructor <;> simp [Escapable, hcontains, hi]
      have hof : Escapable "of" := by simp [Escapable]
      simp only [whole, List.forall_mem_cons, List.not_mem_nil, false_implies, implies_true,
        and_true]
      have hno {i : Item} (hs : i.selector? = none) : ∀ t, i.selector? = some t → t.Writable d := by
        simp [hs]
      exact ⟨⟨⟨hof, hno rfl⟩, ⟨hdescendant, hno rfl⟩, ⟨trivial, hno rfl⟩, ⟨hattribute, hno rfl⟩,
        ⟨hchild, hno rfl⟩, hpair⟩, hpair⟩
  exact ⟨hwhole, parse_written hwhole⟩

end Dialect
end CssSelector
