import CssSelector.Proofs.Grammar
import CssSelector.Proofs.Reads.Complete
import CssSelector.Proofs.Tokens
import Mathlib

/-!
A dialect that lets all unknown constructs pass accepts exactly the texts whose tokens the grammar
derives (`Dialect.accepts_iff_derivable`). Tokens that are read stand in the grammar, and tokens of
a text that stand in the grammar can be read.
-/

set_option autoImplicit false

namespace CssSelector

open Computability Parse Text

namespace Grammar

section
variable (d : Dialect)

def selectors : Language Token := {ts | Derivable d ts}

def tail : Language Token :=
  (simple d (selectors d))∗ * (1 + kind .doubleColon * pseudo d (selectors d) .pseudoElement)

/-- What may be left of a compound behind the `previous` item. -/
def items : Option Item → Language Token
  | none => (1 + kind .ident + kind .asterisk) * tail d
  | some (.pseudo .pseudoElement ..) => 1
  | some _ => tail d

def item : Item → Language Token
  | .tagName _ => kind .ident
  | .universal => kind .asterisk
  | .pseudo .pseudoElement .. => kind .doubleColon * pseudo d (selectors d) .pseudoElement
  | _ => simple d (selectors d)

def phrase : Phrase → Language Token
  | .selector _ => selectors d
  | .rules _ => (kind .comma * space * rule d (selectors d))∗
  | .rule _ => rule d (selectors d)
  | .link _ => combinator * compound d (selectors d)
  | .links _ => (combinator * compound d (selectors d))∗
  | .compound _ => compound d (selectors d)
  | .items previous _ => items d previous
  | .item i => item d i
  | .argument category name _ => argument d (selectors d) category name
  | .body g _ => body (selectors d) g

end

section
variable {d : Dialect} {L : Language Token} {xs ys : List Token}

theorem append_mem_kstar (hx : xs ∈ L) (hy : ys ∈ L∗) : xs ++ ys ∈ L∗ := by
  obtain ⟨ss, rfl, hs⟩ := Language.mem_kstar.1 hy
  refine Language.mem_kstar.2 ⟨xs :: ss, by simp, ?_⟩
  simpa using ⟨hx, hs⟩

theorem nil_mem_tail : [] ∈ tail d :=
  Language.append_mem_mul (Language.nil_mem_kstar _) (.inl rfl)

theorem append_mem_tail (hx : xs ∈ simple d (selectors d)) (hy : ys ∈ tail d) :
    xs ++ ys ∈ tail d := by
  obtain ⟨ss, hs, us, hu, rfl⟩ := hy
  rw [← List.append_assoc]
  exact Language.append_mem_mul (append_mem_kstar hx hs) hu

theorem mem_items_of_mem_tail {previous : Option Item} {k : ItemStart} (hf : k.mayFollow previous)
    (hx : xs ∈ tail d) : xs ∈ items d previous := by
  rcases previous with _ | ⟨_ | _ | _ | _ | _ | ⟨_ | _⟩ | _⟩
  · exact Language.append_mem_mul (a := []) (.inl (.inl rfl)) hx
  all_goals first | exact hx | simp [ItemStart.mayFollow] at hf

theorem nil_mem_items (previous : Option Item) : [] ∈ items d previous := by
  rcases previous with _ | ⟨_ | _ | _ | _ | _ | ⟨_ | _⟩ | _⟩
  · exact Language.append_mem_mul (a := []) (.inl (.inl rfl)) nil_mem_tail
  all_goals first | exact nil_mem_tail | rfl

theorem append_mem_items {previous : Option Item} {i : Item} {k : ItemStart}
    (hs : i.start? = some k) (hf : k.mayFollow previous) (hx : xs ∈ item d i) (hy : ys ∈ items d (some i)) :
    xs ++ ys ∈ items d previous := by
  cases i with
  | tagName name =>
    cases hs
    obtain rfl := ItemStart.eq_none_of_mayFollow (.inl rfl) hf
    exact Language.append_mem_mul (.inl (.inr hx)) hy
  | universal =>
    cases hs
    obtain rfl := ItemStart.eq_none_of_mayFollow (.inr rfl) hf
    exact Language.append_mem_mul (.inr hx) hy
  | className name => exact mem_items_of_mem_tail hf (append_mem_tail hx hy)
  | idName name => exact mem_items_of_mem_tail hf (append_mem_tail hx hy)
  | «attribute» a => exact mem_items_of_mem_tail hf (append_mem_tail hx hy)
  | pseudo category name a =>
    cases category with
    | pseudoClass => exact mem_items_of_mem_tail hf (append_mem_tail hx hy)
    | pseudoElement =>
      obtain rfl : ys = [] := hy
      refine mem_items_of_mem_tail hf ?_
      rw [List.append_nil]
      exact Language.append_mem_mul (a := []) (Language.nil_mem_kstar _) (.inr hx)
  | combinator k => simp [Item.start?] at hs

end

theorem mem_literal {k : Token.Kind} {xs : List Token} {t : Token} (h : ReadsLiteral k xs t) :
    xs ∈ literal k := by
  obtain ⟨hs₁, ht, hs₂⟩ := h
  rw [literal, mul_assoc]
  exact append_mem hs₁ (cons_mem ht (mem_space.2 hs₂))

theorem mem_attributeSelector {o : Token} {xs : List Token} {a : Attribute} {ms : List Mention}
    (ho : o.kind = .leftBracket) (h : ReadsAttribute xs a ms) : o :: xs ∈ attributeSelector := by
  cases h with
  | presence hs₁ hn _ hs₂ hc =>
    refine .inl ?_
    simp only [mul_assoc]
    exact cons_mem ho (append_mem hs₁ (cons_mem hn (append_mem hs₂ ⟨_, rfl, hc⟩)))
  | @comparison s₁ s₂ s₃ s₄ xs name operator value close op m ms hs₁ hn _ hs₂ hp _ hs₃ hv hs₄ hm
      hc =>
    have hvalue := mem_kind_add_kind.2 ⟨value, rfl, hv⟩
    have hmodifier : xs ∈ 1 + kind .ident * space := by
      cases hm with
      | none => exact .inl rfl
      | some ht hs => exact .inr (cons_mem ht (mem_space.2 hs))
    refine .inr ?_
    simp only [mul_assoc]
    refine cons_mem ho (append_mem hs₁ (cons_mem hn (append_mem hs₂ (cons_mem hp ?_))))
    refine append_mem hs₃ ?_
    refine Language.append_mem_mul hvalue (append_mem hs₄ ?_)
    exact Language.append_mem_mul hmodifier ⟨close, rfl, hc⟩

theorem mem_phrase {c : Context} {xs : List Token} {p : Phrase} {ms : List Mention}
    (h : Reads c xs p ms) : xs ∈ phrase c.dialect p := by
  induction h with
  | @selector s xs ys r rs ms ns hs hx hy ihx ihy =>
    refine .mk (selectors c.dialect) (fun _ h => h) ?_
    rw [list, mul_assoc]
    exact append_mem hs (Language.append_mem_mul ihx ihy)
  | noRules => exact Language.nil_mem_kstar _
  | @rules t s xs ys r rs ms ns ht hs hx hy ihx ihy =>
    rw [← List.append_assoc, ← List.cons_append]
    refine append_mem_kstar ?_ ihy
    rw [mul_assoc]
    exact cons_mem ht (append_mem hs ihx)
  | @rule s xs ys is js ms ns hx hy hs ihx ihy =>
    rw [phrase, rule, mul_assoc]
    exact Language.append_mem_mul ihx (Language.append_mem_mul ihy (mem_space.2 hs))
  | noLinks => exact Language.nil_mem_kstar _
  | @links xs ys is js ms ns hx hy ihx ihy => exact append_mem_kstar ihx ihy
  | @descendant s xs is ms hs hne hx ih =>
    refine Language.append_mem_mul (.inl ?_) ih
    cases s with
    | nil => contradiction
    | cons t s =>
      obtain ⟨ht, hs⟩ := Spaces.cons_iff.1 hs
      exact cons_mem ht (mem_space.2 hs)
  | @combinator t k s₁ s₂ xs is ms hs₁ ht hk hs₂ hx ih =>
    rw [← List.cons_append, ← List.append_assoc]
    refine Language.append_mem_mul (.inr ?_) ih
    rw [mul_assoc]
    exact append_mem hs₁ (cons_mem ht (mem_space.2 hs₂))
  | @compound xs is ms hne hx ih =>
    refine ⟨by rw [mul_assoc]; exact ih, ?_⟩
    obtain ⟨t, ys, k, rfl, -⟩ := (Reads.compound hne hx).compound_head
    simp
  | noItems => exact nil_mem_items _
  | @items previous i is k xs ys ms ns hs hf hx hy ihx ihy =>
    exact append_mem_items hs hf ihx ihy
  | @tagName t ht hne => exact ⟨t, rfl, ht⟩
  | @universal t ht => exact ⟨t, rfl, ht⟩
  | @className o t ho ht hne => exact .inl (.inl (.inl (cons_mem ho ⟨t, rfl, ht⟩)))
  | @idName t ht hne => exact .inl (.inl (.inr ⟨t, rfl, ht⟩))
  | @«attribute» o xs a ms ho hx => exact .inr (mem_attributeSelector ho hx)
  | @pseudo o t category xs a ms ho ht hne hx ih =>
    rw [Token.Kind.itemStart?_eq_some] at ho
    cases category with
    | pseudoClass => exact .inl (.inr (cons_mem ho ⟨t, xs, rfl, ht, ih⟩))
    | pseudoElement => exact cons_mem ho ⟨t, xs, rfl, ht, ih⟩
  | @bare category name σ hσ hb =>
    rw [phrase, argument, hσ]
    exact .inl ⟨rfl, hb⟩
  | @argument category name σ g o t xs a ms hσ hg ho hx ht ih =>
    rw [phrase, argument, hσ]
    refine .inr ⟨g, hg, ?_⟩
    rw [mul_assoc]
    exact cons_mem ho (Language.append_mem_mul ih ⟨t, rfl, ht⟩)
  | @bareUnknown category name hσ =>
    rw [phrase, argument, hσ]
    exact .inl rfl
  | @loose category name o t xs text hσ ho hx ht hs =>
    rw [phrase, argument, hσ]
    refine .inr ?_
    rw [mul_assoc]
    exact cons_mem ho (Language.append_mem_mul hx ⟨t, rfl, ht⟩)
  | selectorBody _ ih => exact ih
  | formula hx => exact ⟨_, hx⟩
  | formulaAlone hx => exact .inl ⟨_, hx⟩
  | @formulaOf xs ys w t f s ms hx hw ht hof hy ih =>
    refine .inr ?_
    have happ : xs ++ w :: t :: ys = (xs ++ [w, t]) ++ ys := by simp
    rw [happ]
    exact Language.append_mem_mul ⟨xs, w, t, rfl, ⟨f, hx⟩, hw, ht, hof⟩ ih
  | string hx => exact mem_literal hx
  | identifier hx => exact mem_literal hx
  | number hx _ => exact mem_literal hx

/-! What stands in the grammar can be read, if the tokens are those of a text. -/

theorem exists_literal {k : Token.Kind} {xs : List Token} (h : xs ∈ literal k) :
    ∃ t, ReadsLiteral k xs t := by
  rw [literal, mul_assoc, mem_space_mul] at h
  obtain ⟨s₁, _, rfl, hs₁, h⟩ := h
  obtain ⟨t, s₂, rfl, ht, hs₂⟩ := mem_kind_mul.1 h
  exact ⟨t, hs₁, ht, mem_space.1 hs₂⟩

theorem exists_attribute {source : List Char} {xs : List Token} (hl : Lexed source xs)
    (h : xs ∈ attributeSelector) :
    ∃ o ys a ms, xs = o :: ys ∧ o.kind = .leftBracket ∧ ReadsAttribute ys a ms := by
  rw [attributeSelector, Language.mem_add] at h
  rcases h with h | h
  · simp only [mul_assoc, mem_kind_mul, mem_space_mul] at h
    obtain ⟨o, _, rfl, ho, s₁, _, rfl, hs₁, name, _, rfl, hn, s₂, _, rfl, hs₂, h⟩ := h
    obtain ⟨close, rfl, hc⟩ := h
    have hne := hl.tail.right.head.name (.inl hn)
    exact ⟨o, _, _, _, rfl, ho, .presence hs₁ hn hne hs₂ hc⟩
  · simp only [mul_assoc, mem_kind_mul, mem_space_mul] at h
    obtain ⟨o, _, rfl, ho, s₁, _, rfl, hs₁, name, _, rfl, hn, s₂, _, rfl, hs₂, h⟩ := h
    obtain ⟨operator, _, rfl, hp, s₃, _, rfl, hs₃, h⟩ := h
    rw [Language.mem_mul] at h
    obtain ⟨vs, hv, _, h, rfl⟩ := h
    rw [mem_kind_add_kind] at hv
    obtain ⟨value, rfl, hv⟩ := hv
    rw [mem_space_mul] at h
    obtain ⟨s₄, _, rfl, hs₄, zs, hm, _, ⟨close, rfl, hc⟩, rfl⟩ := h
    have hne := hl.tail.right.head.name (.inl hn)
    have hop := hl.tail.right.tail.right.head.operator hp
    obtain ⟨op, hop⟩ := Option.isSome_iff_exists.1 hop
    obtain ⟨m, ms, hm⟩ : ∃ m ms, ReadsModifier zs m ms := by
      rcases hm with rfl | hm
      · exact ⟨_, _, .none⟩
      · obtain ⟨t, s, rfl, ht, hs⟩ := mem_kind_mul.1 hm
        exact ⟨_, _, .some ht (mem_space.1 hs)⟩
    exact ⟨o, _, _, _, rfl, ho, .comparison hs₁ hn hne hs₂ hp hop hs₃ hv hs₄ hm hc⟩

section
variable {c : Context} {nested : Language Token} {xs ys : List Token}

def Readable (c : Context) (nested : Language Token) : Prop :=
  ∀ ys ∈ nested, Lexed c.source ys → ∃ s ms, Reads c ys (.selector s) ms

theorem exists_body (hn : Readable c nested) (hl : Lexed c.source xs) {g : ArgumentGrammar}
    (h : xs ∈ body nested g) : ∃ a ms, Reads c xs (.body g a) ms := by
  cases g with
  | noArgument => exact h.elim
  | selector =>
    obtain ⟨s, ms, hs⟩ := hn xs h hl
    exact ⟨_, ms, .selectorBody hs⟩
  | formula =>
    obtain ⟨f, hf⟩ := h
    exact ⟨_, _, .formula hf⟩
  | formulaOfSelector =>
    rcases h with ⟨f, hf⟩ | ⟨_, ⟨us, w, t, rfl, ⟨f, hf⟩, hw, ht, hof⟩, ys, hy, rfl⟩
    · exact ⟨_, _, .formulaAlone hf⟩
    · obtain ⟨s, ms, hs⟩ := hn ys hy hl.right
      exact ⟨_, ms, by simpa using .formulaOf hf hw ht hof hs⟩
  | string =>
    obtain ⟨t, ht⟩ := exists_literal h
    exact ⟨_, _, .string ht⟩
  | identifier =>
    obtain ⟨t, ht⟩ := exists_literal h
    exact ⟨_, _, .identifier ht⟩
  | number =>
    obtain ⟨t, ht⟩ := exists_literal h
    cases ht with
    | mk hs₁ ht hs₂ =>
      obtain ⟨x, hx⟩ := Option.isSome_iff_exists.1 (hl.right.head.numeral ht)
      exact ⟨_, _, .number ⟨hs₁, ht, hs₂⟩ hx⟩

theorem exists_argument (hn : Readable c nested) (hl : Lexed c.source xs) {category : Category}
    {name : String} (h : xs ∈ argument c.dialect nested category name) :
    ∃ a ms, Reads c xs (.argument category name a) ms := by
  unfold argument at h
  split at h
  next hσ =>
    rcases h with rfl | h
    · exact ⟨none, [], .bareUnknown hσ⟩
    · rw [mul_assoc] at h
      obtain ⟨o, _, rfl, ho, ys, hy, _, ⟨t, rfl, ht⟩, rfl⟩ := mem_kind_mul.1 h
      have hs : (slice? c.source (c.front (ys ++ [t])).position t.position).isSome := by
        cases ys with
        | nil => exact hl.tail.placed t (by simp)
        | cons y ys => exact hl.tail.before
      obtain ⟨text, htext⟩ := Option.isSome_iff_exists.1 hs
      exact ⟨_, [], .loose hσ ho hy ht htext⟩
  next σ hσ =>
    rcases h with ⟨rfl, hb⟩ | ⟨g, hg, h⟩
    · exact ⟨none, [], .bare hσ hb⟩
    · rw [mul_assoc] at h
      obtain ⟨o, _, rfl, ho, ys, hy, _, ⟨t, rfl, ht⟩, rfl⟩ := mem_kind_mul.1 h
      obtain ⟨a, ms, ha⟩ := exists_body hn hl.tail.left hy
      exact ⟨some a, ms, .argument hσ hg ho ha ht⟩

theorem exists_pseudo (hn : Readable c nested) {category : Category} {o : Token}
    (hl : Lexed c.source (o :: xs)) (ho : o.kind.itemStart? = some (.pseudo category))
    (h : xs ∈ pseudo c.dialect nested category) :
    ∃ i ms, Reads c (o :: xs) (.item i) ms ∧ i.start? = some (.pseudo category) := by
  obtain ⟨t, us, rfl, ht, hu⟩ := h
  obtain ⟨a, ms, ha⟩ := exists_argument hn hl.tail.tail hu
  exact ⟨_, _, .pseudo ho ht (hl.tail.head.name (.inl ht)) ha, rfl⟩

theorem exists_simple (hn : Readable c nested) (hl : Lexed c.source xs)
    (h : xs ∈ simple c.dialect nested) :
    ∃ i k ms, Reads c xs (.item i) ms ∧ i.start? = some k ∧ k ≠ .tagName ∧ k ≠ .universal ∧
      k ≠ .pseudo .pseudoElement := by
  rcases h with ((h | ⟨t, rfl, ht⟩) | h) | h
  · obtain ⟨o, _, rfl, ho, t, rfl, ht⟩ := mem_kind_mul.1 h
    have hne := hl.tail.head.name (.inl ht)
    exact ⟨_, .className, _, .className ho ht hne, rfl, by simp, by simp, by simp⟩
  · have hne := hl.head.name (.inr ht)
    exact ⟨_, .idName, _, .idName ht hne, rfl, by simp, by simp, by simp⟩
  · obtain ⟨o, us, rfl, ho, h⟩ := mem_kind_mul.1 h
    obtain ⟨i, ms, hi, hs⟩ := exists_pseudo hn hl (by rw [ho]; rfl) h
    exact ⟨i, _, ms, hi, hs, by simp, by simp, by simp⟩
  · obtain ⟨o, ys, a, ms, rfl, ho, ha⟩ := exists_attribute hl h
    exact ⟨_, .attribute, _, .attribute ho ha, rfl, by simp, by simp, by simp⟩

theorem exists_tail (hn : Readable c nested) {ss : List (List Token)}
    (hs : ∀ ys ∈ ss, ys ∈ simple c.dialect nested)
    (hx : xs ∈ 1 + kind .doubleColon * pseudo c.dialect nested .pseudoElement)
    (hl : Lexed c.source (ss.flatten ++ xs)) (previous : Option Item)
    (hp : previous.bind Item.start? ≠ some (.pseudo .pseudoElement)) :
    ∃ is ms, Reads c (ss.flatten ++ xs) (.items previous is) ms := by
  induction ss generalizing previous with
  | nil =>
    rw [List.flatten_nil, List.nil_append] at hl ⊢
    rw [Language.mem_add, mem_kind_mul] at hx
    rcases hx with rfl | ⟨o, us, rfl, ho, h⟩
    · exact ⟨[], [], .noItems⟩
    · obtain ⟨i, ms, hi, hs⟩ := exists_pseudo hn hl (by rw [ho]; rfl) h
      have hf : (ItemStart.pseudo .pseudoElement).mayFollow previous :=
        ItemStart.mayFollow_of_ne (by simp) (by simp) hp
      have hi := Reads.items hs hf hi .noItems
      rw [List.append_nil] at hi
      exact ⟨_, _, hi⟩
  | cons ys ss ih =>
    rw [List.flatten_cons, List.append_assoc] at hl ⊢
    obtain ⟨i, k, ms, hi, hk, ht, hu, hpe⟩ := exists_simple hn hl.left (hs ys List.mem_cons_self)
    have hf := ItemStart.mayFollow_of_ne ht hu hp
    have hi' : (some i).bind Item.start? ≠ some (.pseudo .pseudoElement) := by
      simpa [hk] using hpe
    obtain ⟨is, ns, his⟩ := ih (fun zs hz => hs zs (List.mem_cons_of_mem _ hz)) hl.right _ hi'
    exact ⟨i :: is, _, .items hk hf hi his⟩

theorem exists_compound (hn : Readable c nested) (hl : Lexed c.source xs)
    (h : xs ∈ compound c.dialect nested) : ∃ is ms, Reads c xs (.compound is) ms := by
  obtain ⟨h, hne⟩ := h
  suffices hi : ∃ is ms, Reads c xs (.items none is) ms by
    obtain ⟨is, ms, hi⟩ := hi
    refine ⟨is, ms, .compound ?_ hi⟩
    rintro rfl
    cases hi
    exact hne rfl
  rw [mul_assoc, Language.mem_mul] at h
  obtain ⟨us, hu, _, ht, rfl⟩ := h
  rw [Language.mem_mul] at ht
  obtain ⟨ys, hy, zs, hz, rfl⟩ := ht
  rw [Language.mem_kstar] at hy
  obtain ⟨ss, rfl, hs⟩ := hy
  rw [Language.mem_add, Language.mem_add, Language.mem_one] at hu
  rcases hu with (rfl | ⟨t, rfl, ht⟩) | ⟨t, rfl, ht⟩
  · exact exists_tail hn hs hz hl none (by simp)
  · have hname := hl.head.name (.inl ht)
    obtain ⟨is, ms, hi⟩ :=
      exists_tail hn hs hz hl.tail (some (.tagName t.text)) (by simp [Item.start?])
    exact ⟨_, _, .items rfl rfl (.tagName ht hname) hi⟩
  · obtain ⟨is, ms, hi⟩ := exists_tail hn hs hz hl.tail (some .universal) (by simp [Item.start?])
    exact ⟨_, _, .items rfl rfl (.universal ht) hi⟩

theorem exists_link (hn : Readable c nested) (hl : Lexed c.source xs)
    (h : xs ∈ combinator * compound c.dialect nested) : ∃ is ms, Reads c xs (.link is) ms := by
  rw [Language.mem_mul] at h
  obtain ⟨ys, hy, zs, hz, rfl⟩ := h
  obtain ⟨is, ms, hc⟩ := exists_compound hn hl.right hz
  rw [combinator, Language.mem_add, mul_assoc, mem_kind_mul, mem_space_mul] at hy
  rcases hy with ⟨t, s, rfl, ht, hs⟩ | ⟨s₁, _, rfl, hs₁, h⟩
  · exact ⟨_, _, .descendant (Spaces.cons_iff.2 ⟨ht, mem_space.1 hs⟩) (by simp) hc⟩
  · obtain ⟨t, s₂, rfl, ht, hs₂⟩ := mem_kind_mul.1 h
    obtain ⟨k, hk⟩ := Option.isSome_iff_exists.1 (hl.left.right.head.combinator ht)
    exact ⟨_, _, by simpa using .combinator hs₁ ht hk (mem_space.1 hs₂) hc⟩

theorem exists_links (hn : Readable c nested) (hl : Lexed c.source xs)
    (h : xs ∈ (combinator * compound c.dialect nested)∗) : ∃ is ms, Reads c xs (.links is) ms := by
  obtain ⟨ss, rfl, hs⟩ := Language.mem_kstar.1 h
  clear h
  induction ss with
  | nil => exact ⟨[], [], .noLinks⟩
  | cons ys ss ih =>
    rw [List.flatten_cons] at hl ⊢
    obtain ⟨is, ms, hi⟩ := exists_link hn hl.left (hs ys List.mem_cons_self)
    obtain ⟨js, ns, hj⟩ := ih (fun zs hz => hs zs (List.mem_cons_of_mem _ hz)) hl.right
    exact ⟨_, _, .links hi hj⟩

theorem exists_rule (hn : Readable c nested) (hl : Lexed c.source xs)
    (h : xs ∈ rule c.dialect nested) : ∃ r ms, Reads c xs (.rule r) ms := by
  rw [rule, mul_assoc, Language.mem_mul] at h
  obtain ⟨ys, hy, _, ⟨zs, hz, s, hs, rfl⟩, rfl⟩ := h
  obtain ⟨is, ms, hi⟩ := exists_compound hn hl.left hy
  obtain ⟨js, ns, hj⟩ := exists_links hn hl.right.left hz
  exact ⟨_, _, .rule hi hj (mem_space.1 hs)⟩

theorem exists_rules (hn : Readable c nested) (hl : Lexed c.source xs)
    (h : xs ∈ (kind .comma * space * rule c.dialect nested)∗) :
    ∃ rs ms, Reads c xs (.rules rs) ms := by
  obtain ⟨ss, rfl, hs⟩ := Language.mem_kstar.1 h
  clear h
  induction ss with
  | nil => exact ⟨[], [], .noRules⟩
  | cons ys ss ih =>
    rw [List.flatten_cons] at hl ⊢
    have hy := hs ys List.mem_cons_self
    simp only [mul_assoc, mem_kind_mul, mem_space_mul] at hy
    obtain ⟨t, _, rfl, ht, s, ys, rfl, hsp, hy⟩ := hy
    obtain ⟨r, ms, hr⟩ := exists_rule hn hl.left.tail.right hy
    obtain ⟨rs, ns, hrs⟩ := ih (fun zs hz => hs zs (List.mem_cons_of_mem _ hz)) hl.right
    exact ⟨_, _, by simpa using .rules ht hsp hr hrs⟩

theorem exists_selector (hn : Readable c nested) (hl : Lexed c.source xs)
    (h : xs ∈ list c.dialect nested) : ∃ s ms, Reads c xs (.selector s) ms := by
  rw [list, mul_assoc, mem_space_mul] at h
  obtain ⟨s, _, rfl, hs, ys, hy, zs, hz, rfl⟩ := h
  obtain ⟨r, ms, hr⟩ := exists_rule hn hl.right.left hy
  obtain ⟨rs, ns, hrs⟩ := exists_rules hn hl.right.right hz
  exact ⟨_, _, .selector hs hr hrs⟩

theorem Derivable.exists_reads (h : Derivable c.dialect xs) (hl : Lexed c.source xs) :
    ∃ s ms, Reads c xs (.selector s) ms := by
  induction h with
  | mk nested hn hx ih => exact exists_selector ih hl hx

/-- The tokens of a text that can be read as a selector are those that the grammar derives. -/
theorem exists_reads_iff_derivable (hl : Lexed c.source xs) :
    (∃ s ms, Reads c xs (.selector s) ms) ↔ Derivable c.dialect xs :=
  ⟨fun ⟨_, _, h⟩ => mem_phrase h, fun h => h.exists_reads hl⟩

end

end Grammar

namespace Dialect

/-- All constructs that are not recognised pass without a word. -/
structure Lenient (d : Dialect) : Prop where
  pseudoClasses : d.pseudoClassPolicy = .accept
  pseudoElements : d.pseudoElementPolicy = .accept
  attributes : d.attributes.unknown = .accept
  combinators : d.combinators.unknown = .accept

theorem Lenient.policyOn {d : Dialect} (h : d.Lenient) (f : Feature) : d.policyOn f = .accept := by
  rcases f with ⟨_ | _, _⟩ | _ | _ | _
  · exact h.pseudoClasses
  · exact h.pseudoElements
  · exact h.attributes
  · exact h.attributes
  · exact h.combinators

theorem Lenient.passes {d : Dialect} (h : d.Lenient) (ms : List Mention) : d.Passes ms [] := by
  simp [Passes, admits, warnings, flags, h.policyOn]

/-- A dialect that lets everything pass accepts a text exactly if the grammar derives its tokens. -/
theorem accepts_iff_derivable {d : Dialect} (hd : d.Lenient) {text : String} {ts : List Token}
    (ht : tokenize text = .ok ts) :
    (∃ r, d.parse text = .ok r) ↔
      Grammar.Derivable d (ts.takeWhile fun t => t.kind ≠ .endOfInput) := by
  obtain ⟨hl, us, t, rfl, -⟩ := tokenize_eq_ok ht
  rw [← dropLast_of_tokenize ht, List.dropLast_concat]
  have hr := Grammar.exists_reads_iff_derivable (c := ⟨d, text.toList⟩) hl.left
  rw [← hr]
  constructor
  · rintro ⟨r, h⟩
    obtain ⟨ts, ht', ms, h, -⟩ := parse_eq_ok.1 h
    cases ht.symm.trans ht'
    rw [List.dropLast_concat] at h
    exact ⟨_, ms, h⟩
  · rintro ⟨s, ms, h⟩
    refine ⟨⟨s, []⟩, parse_eq_ok.2 ⟨_, ht, ms, ?_, hd.passes ms⟩⟩
    rwa [List.dropLast_concat]

theorem derivable_of_not :
    let d : Dialect :=
      ⟨.insert .empty "not" (.required .selector), .empty, .accept, .accept, {}, {}⟩
    d.Lenient ∧ Grammar.Derivable d
      [⟨.colon, ":", 0⟩, ⟨.ident, "not", 1⟩, ⟨.leftParen, "(", 4⟩, ⟨.dot, ".", 5⟩, ⟨.ident, "a", 6⟩,
        ⟨.rightParen, ")", 7⟩] := by
  intro d
  have hd : d.Lenient := ⟨rfl, rfl, rfl, rfl⟩
  have ht : tokenize ":not(.a)" = .ok
      [⟨.colon, ":", 0⟩, ⟨.ident, "not", 1⟩, ⟨.leftParen, "(", 4⟩, ⟨.dot, ".", 5⟩, ⟨.ident, "a", 6⟩,
        ⟨.rightParen, ")", 7⟩, ⟨.endOfInput, "", 8⟩] := by cbv
  have hr : d.parse ":not(.a)" = .ok ⟨⟨[⟨[.pseudo .pseudoClass "not"
      (some (.selector ⟨[⟨[.className "a"]⟩]⟩))]⟩]⟩, []⟩ := by cbv
  exact ⟨hd, (accepts_iff_derivable hd ht).1 ⟨_, hr⟩⟩

end Dialect
end CssSelector
