import CssSelector.Proofs.Reads

/-!
Offsets elsewhere. What tokens are read as does not depend on their offsets, so that the same tokens
may stand at another place of a text, or in another text that has the same pieces between them
(`Reads.move`). The pieces are looked at in the arguments of unknown names only: where all names are
known the other text may be any (`Reads.move_of_movable`).
-/

set_option autoImplicit false

namespace CssSelector

open Text

def Token.move (f : Nat → Nat) (t : Token) : Token := { t with position := f t.position }

def Mention.move (f : Nat → Nat) (m : Mention) : Mention := { m with position := f m.position }

def Warning.move (f : Nat → Nat) (w : Warning) : Warning := { w with position := f w.position }

def LexError.move (f : Nat → Nat) (e : LexError) : LexError := { e with position := f e.position }

def ParseError.move (f : Nat → Nat) : ParseError → ParseError
  | .lex e => .lex (e.move f)
  | .malformed flaw n => .malformed flaw (f n)
  | .defect (.slice start stop) => .defect (.slice (f start) (f stop))
  | e => e

section
variable (f : Nat → Nat)

@[simp] theorem Token.kind_move (t : Token) : (t.move f).kind = t.kind := rfl

@[simp] theorem Token.text_move (t : Token) : (t.move f).text = t.text := rfl

@[simp] theorem Token.position_move (t : Token) : (t.move f).position = f t.position := rfl

@[simp] theorem Token.move_id : Token.move id = id := rfl

@[simp] theorem Mention.move_id : Mention.move id = id := rfl

@[simp] theorem ParseError.move_id (e : ParseError) : e.move id = e := by
  rcases e with _ | _ | _ | ⟨_ | _ | _⟩ <;> rfl

namespace Dialect

theorem warnings_move (d : Dialect) (ms : List Mention) :
    d.warnings (ms.map (Mention.move f)) = (d.warnings ms).map (Warning.move f) := by
  rw [warnings, warnings, List.filter_map, List.map_map, List.map_map]
  rfl

theorem Passes.move {d : Dialect} {ms : List Mention} {ws : List Warning} (h : d.Passes ms ws) :
    d.Passes (ms.map (Mention.move f)) (ws.map (Warning.move f)) := by
  obtain ⟨hm, rfl⟩ := h
  exact ⟨List.forall_mem_map.2 hm, (d.warnings_move f ms).symm⟩

theorem passes_move_iff {d : Dialect} {ms : List Mention} {vs : List Warning} :
    d.Passes (ms.map (Mention.move f)) vs ↔
      ∃ ws, vs = ws.map (Warning.move f) ∧ d.Passes ms ws := by
  constructor
  · rintro ⟨hm, rfl⟩
    exact ⟨d.warnings ms, d.warnings_move f ms, List.forall_mem_map.1 hm, rfl⟩
  · rintro ⟨ws, rfl, h⟩
    exact h.move f

end Dialect

namespace Parse

theorem Context.front_map {c c' : Context} {t : Token} {xs : List Token} (h : t ∈ xs) :
    c'.front (xs.map (Token.move f)) = (c.front xs).move f := by
  cases xs with
  | nil => contradiction
  | cons => rfl

variable {f} {xs : List Token}

theorem Spaces.move (h : Spaces xs) : Spaces (xs.map (Token.move f)) :=
  List.forall_mem_map.2 h

theorem Balanced.move (h : Balanced xs) : Balanced (xs.map (Token.move f)) := by
  induction h with
  | nil => exact .nil
  | token ho hc _ ih => exact .token ho hc ih
  | parens ho _ ht _ ihx ihy =>
    rw [List.map_cons, List.map_append]
    exact .parens ho ihx ht ihy

theorem ReadsLiteral.move {kind : Token.Kind} {t : Token} (h : ReadsLiteral kind xs t) :
    ReadsLiteral kind (xs.map (Token.move f)) (t.move f) := by
  obtain ⟨hs₁, ht, hs₂⟩ := h
  rw [List.map_append]
  exact .mk hs₁.move ht hs₂.move

theorem formulaTexts?_move (xs : List Token) :
    formulaTexts? (xs.map (Token.move f)) = formulaTexts? xs := by
  induction xs with
  | nil => rfl
  | cons t xs ih =>
    rw [List.map_cons, formulaTexts?, formulaTexts?, ih]
    rfl

theorem ReadsFormula.move {a : Formula} (h : ReadsFormula xs a) :
    ReadsFormula (xs.map (Token.move f)) a := by
  obtain ⟨text, ht, ha⟩ := h
  exact ⟨text, by rwa [formulaTexts?_move], ha⟩

theorem ReadsModifier.move {m : Option String} {ms : List Mention} (h : ReadsModifier xs m ms) :
    ReadsModifier (xs.map (Token.move f)) m (ms.map (Mention.move f)) := by
  cases h with
  | none => exact .none
  | @some t s ht hs => exact .some (t := t.move f) ht hs.move

theorem ReadsAttribute.move {a : Attribute} {ms : List Mention} (h : ReadsAttribute xs a ms) :
    ReadsAttribute (xs.map (Token.move f)) a (ms.map (Mention.move f)) := by
  cases h with
  | @presence s₁ s₂ name close hs₁ hn hne hs₂ hc =>
    simp only [List.map_append, List.map_cons, List.map_nil]
    exact @ReadsAttribute.presence _ _ (name.move f) (close.move f) hs₁.move hn hne hs₂.move hc
  | @comparison s₁ s₂ s₃ s₄ xs name operator value close op m ms hs₁ hn hne hs₂ ho hop hs₃ hv hs₄
      hm hc =>
    simp only [List.map_append, List.map_cons, List.map_nil]
    exact @ReadsAttribute.comparison _ _ _ _ _ (name.move f) (operator.move f) (value.move f)
      (close.move f) op m _ hs₁.move hn hne hs₂.move ho hop hs₃.move hv hs₄.move hm.move hc

/-- Each piece of the first source between two of the tokens is there in the second one, at the
offsets where these tokens are to be. -/
def Kept (c c' : Context) (f : Nat → Nat) (xs : List Token) : Prop :=
  ∀ t ∈ xs, ∀ u ∈ xs, ∀ text, slice? c.source t.position u.position = some text →
    slice? c'.source (f t.position) (f u.position) = some text

variable {c c' : Context}

theorem Kept.mono {ys : List Token} (h : Kept c c' f ys) (hx : xs ⊆ ys) : Kept c c' f xs :=
  fun t ht u hu => h t (hx ht) u (hx hu)

/-- The dialect knows each name that stands behind its colon or colons. -/
def KnownNames (d : Dialect) (xs : List Token) : Prop :=
  ∀ o t category, [o, t] <:+: xs → o.kind.itemStart? = some (.pseudo category) → t.kind = .ident →
    (d.signature? category t.text).isSome

def Phrase.Known (d : Dialect) : Phrase → Prop
  | .argument category name _ => (d.signature? category name).isSome
  | _ => True

/-- Where all names are known the source is not looked at; else its pieces are to be kept. -/
def Movable (c c' : Context) (f : Nat → Nat) (xs : List Token) (p : Phrase) : Prop :=
  KnownNames c.dialect xs ∧ p.Known c.dialect ∨ Kept c c' f xs

theorem KnownNames.mono {d : Dialect} {ys : List Token} (h : KnownNames d ys) (hx : xs <:+: ys) :
    KnownNames d xs :=
  fun o t category hi => h o t category (hi.trans hx)

theorem Movable.part {ys : List Token} {p q : Phrase} (h : Movable c c' f ys p) (hx : xs <:+: ys)
    (hq : q.Known c.dialect) : Movable c c' f xs q :=
  h.imp (fun h => ⟨h.1.mono hx, hq⟩) fun h => h.mono hx.subset

theorem Reads.move_of_movable {p : Phrase} {ms : List Mention} (h : Reads c xs p ms)
    (hk : Movable c c' f xs p)
    (hσ : ∀ category name,
      c'.dialect.signature? category name = c.dialect.signature? category name) :
    Reads c' (xs.map (Token.move f)) p (ms.map (Mention.move f)) := by
  induction h with
  | @selector s xs ys r rs ms ns hs hx hy ihx ihy =>
    simp only [List.map_append]
    exact .selector hs.move (ihx (hk.part ⟨s, ys, by simp⟩ trivial))
      (ihy (hk.part ⟨s ++ xs, [], by simp⟩ trivial))
  | noRules => exact .noRules
  | @rules t s xs ys r rs ms ns ht hs hx hy ihx ihy =>
    simp only [List.map_append, List.map_cons]
    exact .rules ht hs.move (ihx (hk.part ⟨t :: s, ys, by simp⟩ trivial))
      (ihy (hk.part ⟨t :: (s ++ xs), [], by simp⟩ trivial))
  | @rule s xs ys is js ms ns hx hy hs ihx ihy =>
    simp only [List.map_append]
    exact .rule (ihx (hk.part ⟨[], ys ++ s, by simp⟩ trivial))
      (ihy (hk.part ⟨xs, s, by simp⟩ trivial)) hs.move
  | noLinks => exact .noLinks
  | @links xs ys is js ms ns hx hy ihx ihy =>
    simp only [List.map_append]
    exact .links (ihx (hk.part ⟨[], ys, by simp⟩ trivial))
      (ihy (hk.part ⟨xs, [], by simp⟩ trivial))
  | @descendant s xs is ms hs hne hx ih =>
    obtain ⟨t, ys, k, rfl, -⟩ := hx.compound_head
    rw [List.map_append]
    exact .descendant hs.move (by simpa using hne) (ih (hk.part ⟨s, [], by simp⟩ trivial))
  | @combinator t k s₁ s₂ xs is ms hs₁ ht hc hs₂ hx ih =>
    simp only [List.map_append, List.map_cons]
    exact .combinator (t := t.move f) hs₁.move ht hc hs₂.move
      (ih (hk.part ⟨s₁ ++ t :: s₂, [], by simp⟩ trivial))
  | compound hne hx ih => exact .compound hne (ih (hk.part List.infix_rfl trivial))
  | noItems => exact .noItems
  | @items previous i is k xs ys ms ns hs hf hx hy ihx ihy =>
    simp only [List.map_append]
    exact .items hs hf (ihx (hk.part ⟨[], ys, by simp⟩ trivial))
      (ihy (hk.part ⟨xs, [], by simp⟩ trivial))
  | @tagName t ht hne => exact .tagName (t := t.move f) ht hne
  | universal ht => exact .universal ht
  | @className o t ho ht hne => exact .className (t := t.move f) ho ht hne
  | @idName t ht hne => exact .idName (t := t.move f) ht hne
  | «attribute» ho hx => exact .attribute ho hx.move
  | @pseudo o t category xs a ms ho ht hne hx ih =>
    have hin : xs <:+: o :: t :: xs := ⟨[o, t], [], by simp⟩
    have hname : [o, t] <:+: o :: t :: xs := ⟨[], xs, by simp⟩
    refine .pseudo (t := t.move f) ho ht hne (ih (hk.imp (fun h => ?_) fun h => h.mono hin.subset))
    exact ⟨h.1.mono hin, h.1 o t category hname ho ht⟩
  | bare h hb => exact .bare ((hσ _ _).trans h) hb
  | @argument category name σ g o t xs a ms h hg ho hx ht ih =>
    simp only [List.map_append, List.map_cons, List.map_nil]
    exact .argument ((hσ _ _).trans h) hg ho (ih (hk.part ⟨[o], [t], by simp⟩ trivial)) ht
  | bareUnknown h => exact .bareUnknown ((hσ _ _).trans h)
  | @loose category name o t xs text h ho hx ht hs =>
    obtain ⟨-, hname⟩ | hk := hk
    · rw [Phrase.Known, h] at hname
      contradiction
    have hfront : c'.front (xs.map (Token.move f) ++ [t.move f]) =
        (c.front (xs ++ [t])).move f := by
      have hmem : t ∈ xs ++ [t] := by simp
      simpa using Context.front_map f (c := c) hmem
    have hmem : c.front (xs ++ [t]) ∈ o :: (xs ++ [t]) := by cases xs <;> simp
    simp only [List.map_append, List.map_cons, List.map_nil]
    refine .loose ((hσ _ _).trans h) ho hx.move ht ?_
    rw [hfront]
    exact hk _ hmem t (by simp) text hs
  | selectorBody hx ih => exact .selectorBody (ih (hk.part List.infix_rfl trivial))
  | formula hx => exact .formula hx.move
  | formulaAlone hx => exact .formulaAlone hx.move
  | @formulaOf xs ys w t a s ms hx hw ht hof hy ih =>
    simp only [List.map_append, List.map_cons]
    exact .formulaOf (by simpa using hx.move (f := f)) hw ht hof
      (ih (hk.part ⟨xs ++ [w, t], [], by simp⟩ trivial))
  | @string xs t hx => exact .string (t := t.move f) hx.move
  | @identifier xs t hx => exact .identifier (t := t.move f) hx.move
  | @number xs t x hx hv => exact .number (t := t.move f) hx.move hv

theorem Reads.move {p : Phrase} {ms : List Mention} (h : Reads c xs p ms) (hk : Kept c c' f xs)
    (hσ : ∀ category name,
      c'.dialect.signature? category name = c.dialect.signature? category name) :
    Reads c' (xs.map (Token.move f)) p (ms.map (Mention.move f)) :=
  h.move_of_movable (.inr hk) hσ

end Parse
end
end CssSelector
