import CssSelector.Proofs.Run

/-!
How tokens are read: the grammar of selectors as a relation between tokens, the piece of a tree that
they stand for, and what they mention. It says nothing about the order in which a parser looks at
the tokens, and of a dialect it asks only for the signatures of names; whether the mentions pass is
asked afterwards.
-/

set_option autoImplicit false

namespace CssSelector

def Item.start? : Item → Option ItemStart
  | .tagName _ => some .tagName
  | .universal => some .universal
  | .className _ => some .className
  | .idName _ => some .idName
  | .attribute _ => some .attribute
  | .pseudo category .. => some (.pseudo category)
  | .combinator _ => none

/-- What may come after the `previous` item of a compound. Type selectors come first, and nothing
comes after a pseudo-element. -/
def ItemStart.mayFollow (k : ItemStart) (previous : Option Item) : Bool :=
  match previous, k with
  | some (.pseudo .pseudoElement ..), _ => false
  | some _, .tagName => false
  | some _, .universal => false
  | _, _ => true

theorem ItemStart.eq_none_of_mayFollow {k : ItemStart} {previous : Option Item}
    (hk : k = .tagName ∨ k = .universal) (h : k.mayFollow previous) : previous = none := by
  cases previous with
  | none => rfl
  | some i =>
    rcases hk with rfl | rfl
    all_goals
      unfold mayFollow at h
      split at h <;> simp_all

theorem ItemStart.start?_ne_of_mayFollow {k : ItemStart} {i : Item} (h : k.mayFollow (some i)) :
    i.start? ≠ some (.pseudo .pseudoElement) := by
  rintro hi
  cases i <;> simp [Item.start?] at hi
  subst hi
  simp [mayFollow] at h

theorem ItemStart.mayFollow_of_ne {k : ItemStart} {previous : Option Item} (ht : k ≠ .tagName)
    (hu : k ≠ .universal) (hp : previous.bind Item.start? ≠ some (.pseudo .pseudoElement)) :
    k.mayFollow previous := by
  unfold mayFollow
  split <;> simp_all [Item.start?]

def ItemStart.kind : ItemStart → Token.Kind
  | .tagName => .ident
  | .universal => .asterisk
  | .className => .dot
  | .idName => .hash
  | .attribute => .leftBracket
  | .pseudo .pseudoClass => .colon
  | .pseudo .pseudoElement => .doubleColon

theorem Token.Kind.itemStart?_eq_some {kind : Token.Kind} {k : ItemStart} :
    kind.itemStart? = some k ↔ kind = k.kind := by
  rcases k with _ | _ | _ | _ | _ | ⟨_ | _⟩ <;> cases kind <;> simp [itemStart?, ItemStart.kind]

@[simp] theorem ItemStart.itemStart?_kind (k : ItemStart) : k.kind.itemStart? = some k :=
  Token.Kind.itemStart?_eq_some.2 rfl

theorem ItemStart.kind_ne_whitespace (k : ItemStart) : k.kind ≠ .whitespace := by
  rcases k with _ | _ | _ | _ | _ | ⟨_ | _⟩ <;> simp [kind]

theorem ItemStart.kind_ne_leftParen (k : ItemStart) : k.kind ≠ .leftParen := by
  rcases k with _ | _ | _ | _ | _ | ⟨_ | _⟩ <;> simp [kind]

namespace Parse

open Text

inductive Balanced : List Token → Prop
  | nil : Balanced []
  | token {t : Token} {ts : List Token} : t.kind ≠ .leftParen → t.kind ≠ .rightParen →
      Balanced ts → Balanced (t :: ts)
  | parens {o t : Token} {ts us : List Token} : o.kind = .leftParen → Balanced ts →
      t.kind = .rightParen → Balanced us → Balanced (o :: (ts ++ t :: us))

inductive ReadsLiteral (kind : Token.Kind) : List Token → Token → Prop
  | mk {s₁ s₂ : List Token} {t : Token} : Spaces s₁ → t.kind = kind → Spaces s₂ →
      ReadsLiteral kind (s₁ ++ t :: s₂) t

/-- What tokens say in a formula, if all of them can stand in one. -/
def formulaTexts? : List Token → Option (List Char)
  | [] => some []
  | t :: ts => do return (← formulaText? t) ++ (← formulaTexts? ts)

def ReadsFormula (ts : List Token) (f : Formula) : Prop :=
  ∃ text, formulaTexts? ts = some text ∧ Formula.read? (trim text) = some f

inductive ReadsModifier : List Token → Option String → List Mention → Prop
  | none : ReadsModifier [] none []
  | some {t : Token} {s : List Token} : t.kind = .ident → Spaces s →
      ReadsModifier (t :: s) (some t.text) [⟨.modifier t.text, t.position⟩]

/-- An attribute selector behind its opening bracket. -/
inductive ReadsAttribute : List Token → Attribute → List Mention → Prop
  | presence {s₁ s₂ : List Token} {name close : Token} : Spaces s₁ → name.kind = .ident →
      name.text ≠ "" → Spaces s₂ → close.kind = .rightBracket →
      ReadsAttribute (s₁ ++ name :: (s₂ ++ [close])) ⟨name.text, none, none, none⟩ []
  | comparison {s₁ s₂ s₃ s₄ xs : List Token} {name operator value close : Token}
      {op : AttributeOperator} {modifier : Option String} {ms : List Mention} : Spaces s₁ →
      name.kind = .ident → name.text ≠ "" → Spaces s₂ → operator.kind = .attributeOperator →
      AttributeOperator.ofSymbol? operator.text = some op → Spaces s₃ →
      value.kind = .ident ∨ value.kind = .string → Spaces s₄ → ReadsModifier xs modifier ms →
      close.kind = .rightBracket →
      ReadsAttribute
        (s₁ ++ name :: (s₂ ++ operator :: (s₃ ++ value :: (s₄ ++ (xs ++ [close])))))
        ⟨name.text, some op, some value.text, modifier⟩ (⟨.operator op, operator.position⟩ :: ms)

/-- The pieces of a tree that tokens are read as. -/
inductive Phrase where
  | selector (s : Selector)
  /-- Rules after the first one, each behind its comma. -/
  | rules (rs : List Rule)
  | rule (r : Rule)
  /-- A combinator and the compound behind it. -/
  | link (is : List Item)
  | links (is : List Item)
  | compound (is : List Item)
  /-- What is left of a compound behind the `previous` item. -/
  | items (previous : Option Item) (is : List Item)
  | item (i : Item)
  /-- What stands behind a name, with its parentheses. -/
  | argument (category : Category) (name : String) (a : Option Argument)
  /-- What stands between parentheses. -/
  | body (g : ArgumentGrammar) (a : Argument)

inductive Reads (c : Context) : List Token → Phrase → List Mention → Prop
  | selector {s xs ys : List Token} {r : Rule} {rs : List Rule} {ms ns : List Mention} :
      Spaces s → Reads c xs (.rule r) ms → Reads c ys (.rules rs) ns →
      Reads c (s ++ (xs ++ ys)) (.selector ⟨r :: rs⟩) (ms ++ ns)
  | noRules : Reads c [] (.rules []) []
  | rules {t : Token} {s xs ys : List Token} {r : Rule} {rs : List Rule} {ms ns : List Mention} :
      t.kind = .comma → Spaces s → Reads c xs (.rule r) ms → Reads c ys (.rules rs) ns →
      Reads c (t :: (s ++ (xs ++ ys))) (.rules (r :: rs)) (ms ++ ns)
  | rule {s xs ys : List Token} {is js : List Item} {ms ns : List Mention} :
      Reads c xs (.compound is) ms → Reads c ys (.links js) ns → Spaces s →
      Reads c (xs ++ (ys ++ s)) (.rule ⟨is ++ js⟩) (ms ++ ns)
  | noLinks : Reads c [] (.links []) []
  | links {xs ys : List Token} {is js : List Item} {ms ns : List Mention} :
      Reads c xs (.link is) ms → Reads c ys (.links js) ns →
      Reads c (xs ++ ys) (.links (is ++ js)) (ms ++ ns)
  | descendant {s xs : List Token} {is : List Item} {ms : List Mention} :
      Spaces s → s ≠ [] → Reads c xs (.compound is) ms →
      Reads c (s ++ xs) (.link (.combinator .descendant :: is))
        (⟨.combinator .descendant, (c.front xs).position⟩ :: ms)
  | combinator {t : Token} {k : Combinator} {s₁ s₂ xs : List Token} {is : List Item}
      {ms : List Mention} :
      Spaces s₁ → t.kind = .combinator → Combinator.ofSymbol? t.text = some k → Spaces s₂ →
      Reads c xs (.compound is) ms →
      Reads c (s₁ ++ t :: (s₂ ++ xs)) (.link (.combinator k :: is))
        (⟨.combinator k, t.position⟩ :: ms)
  | compound {xs : List Token} {is : List Item} {ms : List Mention} :
      is ≠ [] → Reads c xs (.items none is) ms → Reads c xs (.compound is) ms
  | noItems {previous : Option Item} : Reads c [] (.items previous []) []
  | items {previous : Option Item} {i : Item} {is : List Item} {k : ItemStart}
      {xs ys : List Token} {ms ns : List Mention} :
      i.start? = some k → k.mayFollow previous → Reads c xs (.item i) ms →
      Reads c ys (.items (some i) is) ns →
      Reads c (xs ++ ys) (.items previous (i :: is)) (ms ++ ns)
  | tagName {t : Token} : t.kind = .ident → t.text ≠ "" → Reads c [t] (.item (.tagName t.text)) []
  | universal {t : Token} : t.kind = .asterisk → Reads c [t] (.item .universal) []
  | className {o t : Token} : o.kind = .dot → t.kind = .ident → t.text ≠ "" →
      Reads c [o, t] (.item (.className t.text)) []
  | idName {t : Token} : t.kind = .hash → t.text ≠ "" → Reads c [t] (.item (.idName t.text)) []
  | attribute {o : Token} {xs : List Token} {a : Attribute} {ms : List Mention} :
      o.kind = .leftBracket → ReadsAttribute xs a ms → Reads c (o :: xs) (.item (.attribute a)) ms
  | pseudo {o t : Token} {category : Category} {xs : List Token} {a : Option Argument}
      {ms : List Mention} :
      o.kind.itemStart? = some (.pseudo category) → t.kind = .ident → t.text ≠ "" →
      Reads c xs (.argument category t.text a) ms →
      Reads c (o :: t :: xs) (.item (.pseudo category t.text a))
        (⟨.pseudo category t.text, t.position⟩ :: ms)
  | bare {category : Category} {name : String} {σ : Signature} :
      c.dialect.signature? category name = some σ → σ.bare →
      Reads c [] (.argument category name none) []
  | argument {category : Category} {name : String} {σ : Signature} {g : ArgumentGrammar}
      {o t : Token} {xs : List Token} {a : Argument} {ms : List Mention} :
      c.dialect.signature? category name = some σ → σ.argument = some g → o.kind = .leftParen →
      Reads c xs (.body g a) ms → t.kind = .rightParen →
      Reads c (o :: (xs ++ [t])) (.argument category name (some a)) ms
  | bareUnknown {category : Category} {name : String} :
      c.dialect.signature? category name = none → Reads c [] (.argument category name none) []
  | loose {category : Category} {name : String} {o t : Token} {xs : List Token}
      {text : List Char} :
      c.dialect.signature? category name = none → o.kind = .leftParen → Balanced xs →
      t.kind = .rightParen →
      slice? c.source (c.front (xs ++ [t])).position t.position = some text →
      Reads c (o :: (xs ++ [t]))
        (.argument category name (some (.string (String.ofList (trim text))))) []
  | selectorBody {xs : List Token} {s : Selector} {ms : List Mention} :
      Reads c xs (.selector s) ms → Reads c xs (.body .selector (.selector s)) ms
  | formula {xs : List Token} {f : Formula} :
      ReadsFormula xs f → Reads c xs (.body .formula (.formula f)) []
  | formulaAlone {xs : List Token} {f : Formula} :
      ReadsFormula xs f → Reads c xs (.body .formulaOfSelector (.formulaOfSelector f none)) []
  | formulaOf {xs ys : List Token} {w t : Token} {f : Formula} {s : Selector}
      {ms : List Mention} :
      ReadsFormula (xs ++ [w]) f → w.kind = .whitespace → t.kind = .ident →
      sameLetters t.text "of" → Reads c ys (.selector s) ms →
      Reads c (xs ++ w :: t :: ys) (.body .formulaOfSelector (.formulaOfSelector f (some s))) ms
  | string {xs : List Token} {t : Token} :
      ReadsLiteral .string xs t → Reads c xs (.body .string (.string t.text)) []
  | identifier {xs : List Token} {t : Token} :
      ReadsLiteral .ident xs t → Reads c xs (.body .identifier (.identifier t.text)) []
  | number {xs : List Token} {t : Token} {x : Binary64} :
      ReadsLiteral .number xs t → Binary64.ofNumeral? t.text.toList = some x →
      Reads c xs (.body .number (.number x)) []

section
variable {c : Context} {xs : List Token} {ms : List Mention}

theorem Reads.item_head {i : Item} (h : Reads c xs (.item i) ms) :
    ∃ t ys k, xs = t :: ys ∧ i.start? = some k ∧ t.kind = k.kind := by
  cases h with
  | @tagName t ht => exact ⟨t, [], .tagName, rfl, rfl, ht⟩
  | @universal t ht => exact ⟨t, [], .universal, rfl, rfl, ht⟩
  | @className o t ho => exact ⟨o, [t], .className, rfl, rfl, ho⟩
  | @idName t ht => exact ⟨t, [], .idName, rfl, rfl, ht⟩
  | @«attribute» o xs _ _ ho => exact ⟨o, xs, .attribute, rfl, rfl, ho⟩
  | @pseudo o t category xs _ _ ho =>
    exact ⟨o, t :: xs, .pseudo category, rfl, rfl, Token.Kind.itemStart?_eq_some.1 ho⟩

theorem Reads.compound_head {is : List Item} (h : Reads c xs (.compound is) ms) :
    ∃ t ys, ∃ k : ItemStart, xs = t :: ys ∧ t.kind = k.kind := by
  cases h with
  | compound hne h =>
    cases h with
    | noItems => exact absurd rfl hne
    | items _ _ hi _ =>
      obtain ⟨t, ys, k, rfl, -, hk⟩ := hi.item_head
      exact ⟨t, _, k, rfl, hk⟩

end

end Parse
end CssSelector
