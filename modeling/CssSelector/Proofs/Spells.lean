import CssSelector.Proofs.Conformance
import CssSelector.Proofs.Formula.Written
import CssSelector.Proofs.Lexing.Written
import CssSelector.Proofs.Nested
import CssSelector.Proofs.WellFormed

set_option autoImplicit false

namespace CssSelector

def Argument.Writable : Argument → Prop
  | .selector _ => True
  | .string t => Escapable t
  | .number _ => False
  | .identifier n => n ≠ "" ∧ Escapable n
  | .formula f => f.Writable
  | .formulaOfSelector f _ => f.Writable

structure Attribute.Writable (d : Dialect) (a : Attribute) : Prop where
  name : Escapable a.name
  operator : ∀ op ∈ a.operator, d.recognises (.operator op)
  value : ∀ v ∈ a.value, Escapable v
  modifier : ∀ m ∈ a.modifier, m ≠ "" ∧ Escapable m ∧ d.recognises (.modifier m)

/-- All texts of the item can be escaped, and the dialect recognises what the item mentions. -/
def Item.Writable (d : Dialect) : Item → Prop
  | .tagName n => Escapable n
  | .universal => True
  | .className n => Escapable n
  | .idName n => Escapable n
  | .attribute a => a.Writable d
  | .pseudo c n a => Escapable n ∧ (∃ σ, d.signature? c n = some σ ∧ σ.Allows a) ∧
    ∀ x ∈ a, x.Writable
  | .combinator k => d.recognises (.combinator k)

namespace Parse

open Text Scan

/-- The text is lexed, in front of `us`, as tokens that are read as the phrase, and the dialect has
no word to say about what they mention. -/
def Spells (c : Context) (us cs : List Char) (p : Phrase) : Prop :=
  ∀ n, ∃ ts ms, Lexes n cs ts us ∧ Reads c ts p ms ∧ c.dialect.Passes ms []

section
variable {c : Context} {s : String} {us : List Char}

theorem lexes_escapedName (hne : s ≠ "") (h : Escapable s) (hu : EndsName us) (n : Nat) :
    Lexes n (escapedName s) [⟨.ident, s, n⟩] us :=
  .token (by simp) (token_escapedName hne h hu)

theorem spells_tagName (hne : s ≠ "") (h : Escapable s) (hu : EndsName us) :
    Spells c us (escapedName s) (.item (.tagName s)) :=
  fun n => ⟨_, _, lexes_escapedName hne h hu n, @Reads.tagName _ ⟨.ident, s, n⟩ rfl hne, .nil⟩

theorem spells_universal (hu : EndsItem us) : Spells c us ['*'] (.item .universal) :=
  fun _ => ⟨_, _, .token (by simp) (token_asterisk hu), .universal rfl, .nil⟩

theorem spells_className (hne : s ≠ "") (h : Escapable s) (hu : EndsName us) :
    Spells c us (['.'] ++ escapedName s) (.item (.className s)) := by
  intro n
  have hdot : Lexes n ['.'] [⟨.dot, ".", n⟩] (escapedName s ++ us) :=
    .token (by simp) (token_dot hne h)
  have hname := lexes_escapedName hne h hu (n + byteSize ['.'])
  exact ⟨_, _, hdot.append hname,
    @Reads.className _ ⟨.dot, ".", n⟩ ⟨.ident, s, n + byteSize ['.']⟩ rfl rfl hne, .nil⟩

theorem spells_idName (hne : s ≠ "") (h : Escapable s) (hu : EndsName us) :
    Spells c us ('#' :: escapedName s) (.item (.idName s)) :=
  fun n => ⟨_, _, .token (by simp) (token_escapedHash hne h hu),
    @Reads.idName _ ⟨.hash, s, n⟩ rfl hne, .nil⟩

theorem lexes_modifier {m : Option String} (h : ∀ x ∈ m, x ≠ "" ∧ Escapable x ∧
      c.dialect.recognises (.modifier x)) (us : List Char) (n : Nat) :
    ∃ ts ms, Lexes n ((m.map escapedName).getD []) ts (']' :: us) ∧ ReadsModifier ts m ms ∧
      c.dialect.Passes ms [] := by
  cases m with
  | none => exact ⟨[], [], .nil n _, .none, .nil⟩
  | some x =>
    obtain ⟨hne, hx, hr⟩ := h x rfl
    exact ⟨_, _, lexes_escapedName hne hx (endsName_bracket us) n,
      @ReadsModifier.some ⟨.ident, x, n⟩ [] rfl .nil, .of_recognises hr⟩

theorem ofSymbol?_symbol (op : AttributeOperator) :
    AttributeOperator.ofSymbol? op.symbol = some op := by
  cases op <;> rfl

theorem spells_attribute {a : Attribute} (hs : (Item.attribute a).Simple)
    (hw : a.Writable c.dialect) : Spells c us a.written (.item (.attribute a)) := by
  intro n
  obtain ⟨name, operator, value, modifier⟩ := a
  obtain ⟨hne, hvalue, hmodifier⟩ := hs
  obtain ⟨hname, hop, hval, hmod⟩ := hw
  have hopen (cs : List Char) : Lexes n ['['] [⟨.leftBracket, "[", n⟩] cs := .token (by simp) rfl
  have hclose (m : Nat) : Lexes m [']'] [⟨.rightBracket, "]", m⟩] us := .token (by simp) rfl
  cases operator with
  | none =>
    obtain rfl : value = none := by simpa using hvalue
    obtain rfl : modifier = none := by simpa using hmodifier
    have hlex := (hopen _).append ((lexes_escapedName hne hname (endsName_bracket us) _).append
      (hclose _))
    refine ⟨_, _, hlex, ?_, .nil⟩
    exact .attribute rfl (@ReadsAttribute.presence [] [] _ _ .nil rfl hne .nil rfl)
  | some op =>
    obtain ⟨v, rfl⟩ : ∃ v, value = some v := by simpa [Option.isSome_iff_exists] using hvalue
    let text := (modifier.map escapedName).getD []
    have htext : Attribute.written ⟨name, some op, some v, modifier⟩ =
        ['['] ++ (escapedName name ++ (op.symbol.toList ++ (quotedText v ++ (text ++ [']'])))) := by
      simp [Attribute.written, Attribute.test, text]
    have hsymbol (m : Nat) : Lexes m op.symbol.toList [⟨.attributeOperator, op.symbol, m⟩]
        (quotedText v ++ (text ++ [']']) ++ us) := .token (by simp) (token_operator op _)
    have hquoted (m : Nat) (cs : List Char) : Lexes m (quotedText v) [⟨.string, v, m⟩] cs :=
      .token (by simp) (token_quotedText (hval v rfl))
    have hn (m : Nat) := lexes_escapedName hne hname
      (endsName_operator op (quotedText v ++ (text ++ [']']) ++ us)) m
    rw [← List.append_assoc] at hn
    obtain ⟨xs, ms, hx, hr, hp⟩ := lexes_modifier hmod us
      (n + byteSize ['['] + byteSize (escapedName name) + byteSize op.symbol.toList +
        byteSize (quotedText v))
    have hlex := (hopen _).append ((hn _).append ((hsymbol _).append ((hquoted _ _).append
      (hx.append (hclose _)))))
    rw [htext]
    refine ⟨_, ⟨.operator op, n + byteSize ['['] + byteSize (escapedName name)⟩ :: ms, hlex, ?_, ?_⟩
    · exact .attribute rfl (@ReadsAttribute.comparison [] [] [] [] xs _ _ _ _ op modifier ms .nil
        rfl hne .nil rfl (ofSymbol?_symbol op) .nil (.inr rfl) .nil hr rfl)
    · exact (Dialect.Passes.of_recognises (hop op rfl)).cons hp

end

def EndsTree (us : List Char) : Prop := ∀ u ∈ us.head?, u = ')'

def SpellsTree (c : Context) (s : Selector) : Prop :=
  OpensItem s.written ∧ ∀ us, EndsTree us → Spells c us s.written (.selector s)

section
variable {c : Context} {us : List Char} {f : Formula}

theorem endsTree_paren (us : List Char) : EndsTree (')' :: us) := by
  rintro u ⟨⟩
  rfl

theorem vtab_not_mem_written (f : Formula) : '\x0b' ∉ f.written := by
  intro h
  have hb := (Formula.isWritten_spec (Formula.isWritten_of_mem h)).1
  contradiction

theorem lexes_formula (h : f.Writable) (n : Nat) :
    ∃ ts, Lexes n f.written ts (')' :: us) ∧ ReadsFormula ts f := by
  have hhead : ∀ u ∈ (')' :: us).head?, ¬isSpace u := by
    rintro u ⟨⟩
    decide
  exact Lexes.exists_of_read? (Formula.read?_written h) (vtab_not_mem_written f) (.inr hhead)
    (endsWord_paren us) n

theorem spells_formulaOf {s : Selector} (hf : f.Writable) (hs : SpellsTree c s) :
    Spells c (')' :: us) (f.written ++ (" of ".toList ++ s.written))
      (.body .formulaOfSelector (.formulaOfSelector f (some s))) := by
  intro n
  -- One space belongs to the formula, the other one stands in front of the selector.
  have htext : f.written ++ (" of ".toList ++ s.written) =
      (f.written ++ [' ']) ++ (['o', 'f'] ++ ([' '] ++ s.written)) := by simp
  obtain ⟨hopen, hspells⟩ := hs
  have hhead : ∀ x ∈ (['o', 'f'] ++ ([' '] ++ s.written) ++ ')' :: us).head?, ¬isSpace x := by
    rintro x ⟨⟩
    decide
  obtain ⟨fs, w, hfs, hw, hread⟩ := Lexes.exists_of_read?_space (Formula.read?_written hf)
    (vtab_not_mem_written f) hhead n
  have hspace (m : Nat) : Lexes m [' '] [⟨.whitespace, " ", m⟩] (s.written ++ ')' :: us) :=
    .token (by simp) (token_combinator .descendant (hopen.append _))
  obtain ⟨ts, ms, hx, hr, hp⟩ := hspells (')' :: us) (endsTree_paren us)
    (n + byteSize (f.written ++ [' ']) + byteSize ['o', 'f'] + byteSize [' '])
  have hlex := hfs.append ((lexes_of _ _).append ((hspace _).append hx))
  rw [htext]
  refine ⟨_, ms, hlex, ?_, hp⟩
  rw [List.append_assoc]
  refine .formulaOf hread hw rfl (by simp [sameLetters]) ?_
  exact (reads_spaces_append_iff (Spaces.cons_iff.2 ⟨rfl, .nil⟩)).2 hr

theorem spells_body {category : Category} {name : String} {a : Argument} (hw : a.Writable)
    (hn : ∀ s, (Item.pseudo category name (some a)).selector? = some s → SpellsTree c s) :
    Spells c (')' :: us) a.written (.body a.grammar a) := by
  intro n
  cases a with
  | selector s =>
    obtain ⟨ts, ms, hx, hr, hp⟩ := (hn s rfl).2 _ (endsTree_paren us) n
    exact ⟨ts, ms, hx, .selectorBody hr, hp⟩
  | string t =>
    exact ⟨_, _, .token (by simp) (token_quotedText hw),
      .string (@ReadsLiteral.mk .string [] [] ⟨.string, t, n⟩ .nil rfl .nil), .nil⟩
  | number => exact hw.elim
  | identifier m =>
    obtain ⟨hne, hm⟩ := hw
    exact ⟨_, _, lexes_escapedName hne hm (endsName_paren (.inr rfl) us) n,
      .identifier (@ReadsLiteral.mk .ident [] [] ⟨.ident, m, n⟩ .nil rfl .nil), .nil⟩
  | formula f =>
    obtain ⟨ts, hx, hr⟩ := lexes_formula hw n
    exact ⟨ts, [], hx, .formula hr, .nil⟩
  | formulaOfSelector f s =>
    cases s with
    | none =>
      obtain ⟨ts, hx, hr⟩ := lexes_formula hw n
      exact ⟨ts, [], hx, .formulaAlone hr, .nil⟩
    | some s => exact spells_formulaOf hw (hn s rfl) n

theorem spells_pseudo {category : Category} {name : String} {a : Option Argument}
    (hne : name ≠ "") (hw : (Item.pseudo category name a).Writable c.dialect)
    (hn : ∀ s, (Item.pseudo category name a).selector? = some s → SpellsTree c s)
    (hu : EndsItem us) :
    Spells c us (Item.written (.pseudo category name a)) (.item (.pseudo category name a)) := by
  obtain ⟨hname, ⟨σ, hσ, ha⟩, hwa⟩ := hw
  have hknown : c.dialect.recognises (.pseudo category name) := by
    simp [Dialect.recognises, hσ]
  have hcolons (m : Nat) (cs : List Char) : Lexes m category.colons.toList
      [⟨(ItemStart.pseudo category).kind, category.colons, m⟩] (escapedName name ++ cs) :=
    .token (by cases category <;> simp [ItemStart.kind]) (token_colons category hne hname)
  intro n
  let m := n + byteSize category.colons.toList
  cases a with
  | none =>
    refine ⟨_, [⟨.pseudo category name, m⟩],
      (hcolons n us).append (lexes_escapedName hne hname hu.endsName _), ?_,
      .of_recognises hknown⟩
    exact @Reads.pseudo _ _ ⟨.ident, name, m⟩ _ _ _ _ (ItemStart.itemStart?_kind _) rfl hne
      (.bare hσ ha)
  | some a =>
    obtain ⟨g, hg, -, rfl⟩ := ha
    have hbody : Spells c (')' :: us) a.written (.body a.grammar a) := spells_body (hwa a rfl) hn
    obtain ⟨ts, ms, hx, hr, hp⟩ := hbody (m + byteSize (escapedName name) + byteSize ['('])
    have hopen (k : Nat) (cs : List Char) : Lexes k ['('] [⟨.leftParen, "(", k⟩] cs :=
      .token (by simp) rfl
    have hclose (k : Nat) : Lexes k [')'] [⟨.rightParen, ")", k⟩] us := .token (by simp) rfl
    have hword := lexes_escapedName hne hname
      (endsName_paren (.inl rfl) (a.written ++ [')'] ++ us)) m
    have hfront := hcolons n ('(' :: (a.written ++ [')']) ++ us)
    rw [← List.append_assoc] at hfront
    refine ⟨_, ⟨.pseudo category name, m⟩ :: ms,
      hfront.append (hword.append ((hopen _ _).append (hx.append (hclose _)))), ?_,
      (Dialect.Passes.of_recognises hknown).cons hp⟩
    exact @Reads.pseudo _ _ ⟨.ident, name, m⟩ _ _ _ _ (ItemStart.itemStart?_kind _) rfl hne
      (.argument hσ hg rfl hr rfl)

theorem spells_item {i : Item} (hs : i.Simple) (hw : i.Writable c.dialect)
    (hn : ∀ s, i.selector? = some s → SpellsTree c s) (hu : EndsItem us) :
    Spells c us i.written (.item i) := by
  cases i with
  | tagName n => exact spells_tagName hs hw hu.endsName
  | universal => exact spells_universal hu
  | className n => exact spells_className hs hw hu.endsName
  | idName n => exact spells_idName hs hw hu.endsName
  | «attribute» a => exact spells_attribute hs hw
  | pseudo category name a => exact spells_pseudo hs hw hn hu
  | combinator k => exact hs.elim

end

theorem exists_written_pseudo (category : Category) (name : String) (a : Option Argument) :
    ∃ xs, Item.written (.pseudo category name a) = ':' :: xs := by
  cases category <;> cases a <;> exact ⟨_, rfl⟩

theorem opensItem_written {d : Dialect} {i : Item} (hs : i.Simple) (hw : i.Writable d) :
    OpensItem i.written := by
  cases i with
  | tagName n =>
    obtain ⟨x, xs, hx, -⟩ := exists_escapedName hs hw
    exact .inl ⟨_, _, hx, by simp⟩
  | className n =>
    obtain ⟨x, xs, hx, -⟩ := exists_escapedName hs hw
    exact .inr ⟨_, congrArg ('.' :: ·) hx⟩
  | universal | idName | «attribute» => exact .inl ⟨_, _, rfl, by simp⟩
  | pseudo category n a =>
    obtain ⟨xs, hx⟩ := exists_written_pseudo category n a
    exact .inl ⟨_, _, hx, by simp⟩
  | combinator k => exact hs.elim

theorem endsItem_written {i : Item} (hs : i.Simple) (ht : ¬i.isType) (us : List Char) :
    EndsItem (i.written ++ us) := by
  cases i with
  | tagName | universal => exact absurd rfl ht
  | className | idName | «attribute» =>
    rintro u ⟨⟩
    simp
  | pseudo category n a =>
    obtain ⟨xs, hx⟩ := exists_written_pseudo category n a
    rw [hx]
    rintro u ⟨⟩
    simp
  | combinator k => exact hs.elim

end Parse
end CssSelector
