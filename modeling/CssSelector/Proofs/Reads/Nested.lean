import CssSelector.Proofs.Reads.Complete

set_option autoImplicit false

namespace CssSelector.Parse

open Text

namespace Balanced
variable {t : Token} {xs ys : List Token}

theorem append (hx : Balanced xs) (hy : Balanced ys) : Balanced (xs ++ ys) := by
  induction hx with
  | nil => exact hy
  | token ho hc _ ih => exact .token ho hc ih
  | parens ho hx ht _ _ ih =>
    rw [List.cons_append, List.append_assoc]
    exact .parens ho hx ht ih

theorem of_forall (h : ∀ t ∈ xs, t.kind ≠ .leftParen ∧ t.kind ≠ .rightParen) : Balanced xs := by
  induction xs with
  | nil => exact .nil
  | cons t xs ih =>
    obtain ⟨ht, hxs⟩ := List.forall_mem_cons.1 h
    exact .token ht.1 ht.2 (ih hxs)

theorem cons (ho : t.kind ≠ .leftParen) (hc : t.kind ≠ .rightParen) :
    Balanced (t :: xs) ↔ Balanced xs := by
  refine ⟨fun h => ?_, .token ho hc⟩
  cases h with
  | token _ _ h => exact h
  | parens h => exact absurd h ho

theorem spaces_append (hs : Spaces xs) : Balanced (xs ++ ys) ↔ Balanced ys := by
  induction xs with
  | nil => rfl
  | cons t xs ih =>
    obtain ⟨ht, hxs⟩ := Spaces.cons_iff.1 hs
    rw [List.cons_append, cons (by simp [ht]) (by simp [ht]), ih hxs]

theorem of_spaces (h : Spaces xs) : Balanced xs :=
  of_forall fun t ht => by simp [h t ht]

theorem eq_of_append {xs ys us vs : List Token} {t u : Token} (hx : Balanced xs)
    (hy : Balanced ys) (ht : t.kind = .rightParen) (hu : u.kind = .rightParen)
    (h : xs ++ t :: us = ys ++ u :: vs) : xs = ys ∧ t :: us = u :: vs := by
  have hclose {zs : List Token} {w : Token} (ws : List Token) (hz : Balanced zs)
      (hw : w.kind = .rightParen) :
      closing? 0 (zs ++ w :: ws) = some zs.length := by
    rw [hz.closing?_append]
    simp [closing?, hw]
  have hlen := hclose us hx ht
  rw [h, hclose vs hy hu] at hlen
  exact List.append_inj h (Option.some.inj hlen).symm

end Balanced

section
variable {c : Context} {xs : List Token} {ms : List Mention}

theorem ReadsModifier.balanced {m : Option String} (h : ReadsModifier xs m ms) : Balanced xs := by
  cases h with
  | none => exact .nil
  | some ht hs => exact .token (by simp [ht]) (by simp [ht]) (.of_spaces hs)

theorem ReadsAttribute.balanced {a : Attribute} (h : ReadsAttribute xs a ms) : Balanced xs := by
  cases h with
  | presence hs₁ hn _ hs₂ hc =>
    refine .append (.of_spaces hs₁) (.token (by simp [hn]) (by simp [hn]) ?_)
    exact .append (.of_spaces hs₂) (.token (by simp [hc]) (by simp [hc]) .nil)
  | comparison hs₁ hn _ hs₂ ho _ hs₃ hv hs₄ hm hc =>
    refine .append (.of_spaces hs₁) (.token (by simp [hn]) (by simp [hn]) ?_)
    refine .append (.of_spaces hs₂) (.token (by simp [ho]) (by simp [ho]) ?_)
    refine .append (.of_spaces hs₃) (.token (by grind) (by grind) ?_)
    refine .append (.of_spaces hs₄) (.append hm.balanced ?_)
    exact .token (by simp [hc]) (by simp [hc]) .nil

theorem ReadsLiteral.balanced {kind : Token.Kind} (ho : kind ≠ .leftParen) (hc : kind ≠ .rightParen)
    {t : Token} (h : ReadsLiteral kind xs t) : Balanced xs := by
  cases h with
  | mk hs₁ ht hs₂ => exact .append (.of_spaces hs₁) (.token (ht ▸ ho) (ht ▸ hc) (.of_spaces hs₂))

theorem ReadsFormula.balanced {f : Formula} (h : ReadsFormula xs f) : Balanced xs := by
  refine .of_forall fun t ht => ?_
  have hs := (h.stands ht).1
  constructor <;> intro hk <;> simp [formulaText?, hk] at hs

theorem Reads.balanced {p : Phrase} (h : Reads c xs p ms) : Balanced xs := by
  induction h with
  | selector hs _ _ ihx ihy => exact .append (.of_spaces hs) (.append ihx ihy)
  | rules ht hs _ _ ihx ihy =>
    exact .token (by simp [ht]) (by simp [ht]) (.append (.of_spaces hs) (.append ihx ihy))
  | rule _ _ hs ihx ihy => exact .append ihx (.append ihy (.of_spaces hs))
  | links _ _ ihx ihy => exact .append ihx ihy
  | descendant hs _ _ ih => exact .append (.of_spaces hs) ih
  | combinator hs₁ ht _ hs₂ _ ih =>
    refine .append (.of_spaces hs₁) (.token (by simp [ht]) (by simp [ht]) ?_)
    exact .append (.of_spaces hs₂) ih
  | compound _ _ ih => exact ih
  | items _ _ _ _ ihx ihy => exact .append ihx ihy
  | noRules | noLinks | noItems | bare | bareUnknown => exact .nil
  | tagName ht | universal ht | idName ht => exact .token (by simp [ht]) (by simp [ht]) .nil
  | className ho ht =>
    exact .token (by simp [ho]) (by simp [ho]) (.token (by simp [ht]) (by simp [ht]) .nil)
  | «attribute» ho hx => exact .token (by simp [ho]) (by simp [ho]) hx.balanced
  | pseudo ho ht _ _ ih =>
    have hk := Token.Kind.itemStart?_eq_some.1 ho
    refine .token (hk ▸ ItemStart.kind_ne_leftParen _) ?_ (.token (by simp [ht]) (by simp [ht]) ih)
    intro hc
    simp [hc, Token.Kind.itemStart?] at ho
  | argument _ _ ho _ ht ih => exact .parens ho ih ht .nil
  | loose _ ho hx ht _ => exact .parens ho hx ht .nil
  | selectorBody _ ih => exact ih
  | formula hx => exact hx.balanced
  | formulaAlone hx => exact hx.balanced
  | @formulaOf xs ys w t f s ms hx hw ht hof hy ih =>
    have hty : Balanced (t :: ys) := .token (by simp [ht]) (by simp [ht]) ih
    simpa using hx.balanced.append hty
  | string hx => exact hx.balanced (by simp) (by simp)
  | identifier hx => exact hx.balanced (by simp) (by simp)
  | number hx => exact hx.balanced (by simp) (by simp)

end

theorem ReadsFormula.unique {xs : List Token} {f g : Formula} (hf : ReadsFormula xs f)
    (hg : ReadsFormula xs g) : f = g := by
  obtain ⟨text, ht, hf⟩ := hf
  obtain ⟨text', ht', hg⟩ := hg
  cases ht.symm.trans ht'
  exact Option.some.inj (hf.symm.trans hg)

/-! What the tokens in front say about the phrase. -/

section
variable {c : Context} {o t : Token} {xs : List Token} {ms : List Mention}

theorem Reads.items_nil {previous : Option Item} {is : List Item}
    (h : Reads c [] (.items previous is) ms) : is = [] ∧ ms = [] := by
  generalize hx : ([] : List Token) = xs at h
  cases h with
  | noItems => exact ⟨rfl, rfl⟩
  | items _ _ hi _ =>
    obtain ⟨t, ys, k, rfl, -⟩ := hi.item_head
    contradiction

theorem Reads.links_nil {is : List Item} (h : Reads c [] (.links is) ms) : is = [] ∧ ms = [] := by
  generalize hx : ([] : List Token) = xs at h
  cases h with
  | noLinks => exact ⟨rfl, rfl⟩
  | links hl _ =>
    cases hl with
    | descendant hs hne _ =>
      rw [eq_comm, List.append_eq_nil_iff, List.append_eq_nil_iff] at hx
      exact absurd hx.1.1 hne
    | combinator => simp at hx

theorem Reads.rules_nil {rs : List Rule} (h : Reads c [] (.rules rs) ms) : rs = [] ∧ ms = [] := by
  generalize hx : ([] : List Token) = xs at h
  cases h with
  | noRules => exact ⟨rfl, rfl⟩
  | rules => contradiction

theorem Reads.pseudo_of_item {category : Category}
    (ho : o.kind.itemStart? = some (.pseudo category)) {i : Item}
    (h : Reads c (o :: xs) (.item i) ms) :
    ∃ t ys a ns, xs = t :: ys ∧ i = .pseudo category t.text a ∧
      ms = ⟨.pseudo category t.text, t.position⟩ :: ns ∧
      Reads c ys (.argument category t.text a) ns := by
  generalize hx : o :: xs = zs at h
  cases h with
  | tagName ht | universal ht | className ht | idName ht | «attribute» ht =>
    obtain ⟨rfl, -⟩ := List.cons.inj hx
    simp [ht, Token.Kind.itemStart?] at ho
  | @pseudo o' t category' ys a ns hk ht hne hy =>
    obtain ⟨rfl, rfl⟩ := List.cons.inj hx
    rw [ho] at hk
    cases hk
    exact ⟨t, ys, a, ns, rfl, rfl, rfl, hy⟩

theorem Reads.argument_of_leftParen {category : Category} {name : String} {σ : Signature}
    {g : ArgumentGrammar} {l : Token} (hσ : c.dialect.signature? category name = some σ)
    (hg : σ.argument = some g) {ys zs : List Token} {a : Option Argument}
    (h : Reads c ys (.argument category name a) ms) (hl : l.kind = .leftParen)
    (hyz : ys ++ zs = l :: xs) (hz : ∀ t ∈ zs.head?, t.kind ≠ .leftParen) :
    ∃ us r b, xs = us ++ r :: zs ∧ r.kind = .rightParen ∧ a = some b ∧
      Reads c us (.body g b) ms := by
  cases h with
  | bare | bareUnknown =>
    rw [List.nil_append] at hyz
    exact absurd hl (hz l (by simp [hyz]))
  | @argument _ _ σ' g' o r us b _ hσ' hg' ho hx hr =>
    rw [hσ] at hσ'
    cases hσ'
    rw [hg] at hg'
    cases hg'
    rw [List.cons_append, List.append_assoc] at hyz
    obtain ⟨-, rfl⟩ := List.cons.inj hyz
    exact ⟨us, r, b, rfl, hr, rfl, hx⟩
  | loose hσ' => simp [hσ] at hσ'

theorem reads_pseudo_iff {l r : Token} {σ : Signature} {g : ArgumentGrammar} {s : Selector}
    (ho : o.kind = .colon) (ht : t.kind = .ident) (hne : t.text ≠ "")
    (hσ : c.dialect.signature? .pseudoClass t.text = some σ) (hg : σ.argument = some g)
    (hl : l.kind = .leftParen) (hx : Balanced xs) (hr : r.kind = .rightParen) :
    Reads c (o :: t :: l :: (xs ++ [r])) (.selector s) ms ↔
      ∃ a ns, s = ⟨[⟨[.pseudo .pseudoClass t.text (some a)]⟩]⟩ ∧
        ms = ⟨.pseudo .pseudoClass t.text, t.position⟩ :: ns ∧ Reads c xs (.body g a) ns := by
  constructor
  · intro h
    generalize hts : o :: t :: l :: (xs ++ [r]) = ts at h
    cases h with
    | @selector s₁ X Y rule rs m₁ n₁ hs₁ hX hY =>
    cases hX with
    | @rule s₂ A B is js m₂ n₂ hA hB hs₂ =>
    cases hA with
    | compound his hA =>
    cases hA with
    | noItems => contradiction
    | @items _ i is k P Q m₃ n₃ hi hk hitem hQ =>
    obtain rfl : s₁ = [] := by
      cases s₁ with
      | nil => rfl
      | cons w s₁ =>
        have hw := (Spaces.cons_iff.1 hs₁).1
        obtain ⟨rfl, -⟩ := List.cons.inj hts
        simp [ho] at hw
    obtain ⟨u, ys, k', rfl, -⟩ := hitem.item_head
    simp only [List.nil_append, List.cons_append, List.append_assoc] at hts
    obtain ⟨rfl, htail⟩ := List.cons.inj hts
    obtain ⟨t', ys, a, m₄, rfl, rfl, rfl, harg⟩ := hitem.pseudo_of_item (by rw [ho]; rfl)
    obtain ⟨rfl, hys⟩ := List.cons.inj htail
    have hrest : ∀ u ∈ (Q ++ (B ++ (s₂ ++ Y))).head?, u.kind ≠ .leftParen := by
      refine forall_head?_append hQ.items_head (forall_head?_append ?_ (forall_head?_append ?_ ?_))
      · intro u hu
        rcases hB.links_head u hu with h | h <;> simp [h]
      · exact fun u hu => by simp [hs₂ u (List.mem_of_mem_head? hu)]
      · intro u hu
        cases hY with
        | noRules => contradiction
        | rules hc _ _ _ =>
          cases hu
          simp [hc]
    obtain ⟨us, r', b, hus, hr', rfl, hb⟩ := harg.argument_of_leftParen hσ hg hl hys.symm hrest
    obtain ⟨rfl, hend⟩ := hx.eq_of_append hb.balanced hr hr' hus
    obtain ⟨rfl, rfl, rfl, rfl⟩ : Q = [] ∧ B = [] ∧ s₂ = [] ∧ Y = [] := by
      simpa using (List.cons.inj hend).2
    obtain ⟨rfl, rfl⟩ := hQ.items_nil
    obtain ⟨rfl, rfl⟩ := hB.links_nil
    obtain ⟨rfl, rfl⟩ := hY.rules_nil
    exact ⟨b, m₄, rfl, by simp, hb⟩
  · rintro ⟨a, ns, rfl, rfl, h⟩
    have harg : Reads c (l :: (xs ++ [r])) (.argument .pseudoClass t.text (some a)) ns :=
      .argument hσ hg hl h hr
    have hitem : Reads c (o :: t :: l :: (xs ++ [r]))
        (.item (.pseudo .pseudoClass t.text (some a)))
        (⟨.pseudo .pseudoClass t.text, t.position⟩ :: ns) :=
      .pseudo (by simp [ho, Token.Kind.itemStart?]) ht hne harg
    have hcompound := Reads.compound (by simp) (hitem.items rfl rfl .noItems)
    have hrule := hcompound.rule .noLinks Spaces.nil
    simpa using Reads.selector Spaces.nil hrule .noRules

theorem reads_spaces_append_iff {s : List Token} {T : Selector} (hs : Spaces s) :
    Reads c (s ++ xs) (.selector T) ms ↔ Reads c xs (.selector T) ms := by
  constructor
  · intro h
    generalize hts : s ++ xs = ts at h
    cases h with
    | @selector s₁ X Y r rs m n hs₁ hX hY =>
      obtain ⟨t, zs, rfl, ht⟩ := hX.rule_head
      have hdrop := congrArg (List.dropWhile Token.isSpace) hts
      have hstop : (t :: (zs ++ Y)).dropWhile Token.isSpace = t :: (zs ++ Y) :=
        dropWhile_isSpace_of_head (by simpa using ht)
      rw [hs.dropWhile_append, hs₁.dropWhile_append, List.cons_append, hstop] at hdrop
      have hxs := List.takeWhile_append_dropWhile (p := Token.isSpace) (l := xs)
      rw [hdrop] at hxs
      rw [← hxs]
      exact .selector (Spaces.takeWhile xs) hX hY
  · intro h
    cases h with
    | selector hs₁ hX hY =>
      rw [← List.append_assoc]
      exact .selector (Spaces.append_iff.2 ⟨hs, hs₁⟩) hX hY

theorem reads_selectorBody_iff {a : Argument} :
    Reads c xs (.body .selector a) ms ↔ ∃ T, a = .selector T ∧ Reads c xs (.selector T) ms := by
  constructor
  · intro h
    cases h with
    | selectorBody h => exact ⟨_, rfl, h⟩
  · rintro ⟨T, rfl, h⟩
    exact .selectorBody h

/-- Behind a formula that ends with white space the first `of` is the keyword, whatever names come
after it. -/
theorem reads_formulaOf_iff {w : Token} {ys : List Token} {f : Formula} {a : Argument}
    (hx : ReadsFormula (xs ++ [w]) f) (hw : w.kind = .whitespace) (ht : t.kind = .ident)
    (hof : sameLetters t.text "of") :
    Reads c (xs ++ w :: t :: ys) (.body .formulaOfSelector a) ms ↔
      ∃ T, a = .formulaOfSelector f (some T) ∧ Reads c ys (.selector T) ms := by
  constructor
  · intro h
    have hkey {us : List Token} {v u : Token} {e : Formula} (zs : List Token)
        (hus : ReadsFormula (us ++ [v]) e) (hv : v.kind = .whitespace) (hu : u.kind = .ident)
        (huf : sameLetters u.text "of") :
        ofKeyword? .leftParen 0 (us ++ v :: u :: zs) = some (us ++ [v]).length := by
      rw [← List.singleton_append, ← List.append_assoc, ofKeyword?_append fun t ht => hus.stands ht]
      simp [ofKeyword?, hu, huf, hv]
    have hlen := hkey ys hx hw ht hof
    generalize hts : xs ++ w :: t :: ys = ts at h
    rw [hts] at hlen
    cases h with
    | formulaAlone hus =>
      have hmem : t ∈ ts := by simp [← hts]
      exact absurd ⟨ht, hof⟩ (hus.stands hmem).2
    | @formulaOf us zs v u e T _ hus hv hu huf hz =>
      rw [hkey zs hus hv hu huf] at hlen
      have hsplit : (xs ++ [w]) ++ t :: ys = (us ++ [v]) ++ u :: zs := by simpa using hts
      obtain ⟨hxs, htail⟩ := List.append_inj hsplit (Option.some.inj hlen).symm
      obtain ⟨rfl, rfl⟩ := List.cons.inj htail
      rw [hxs] at hx
      obtain rfl := hx.unique hus
      exact ⟨T, rfl, hz⟩
  · rintro ⟨T, rfl, h⟩
    exact .formulaOf hx hw ht hof h

end

end CssSelector.Parse
