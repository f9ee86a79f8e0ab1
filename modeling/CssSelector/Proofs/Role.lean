import CssSelector.Proofs.Reads.Formula

/-!
The role of each token of a selector, told from left to right. It is enough to know whether a token
stands in a selector, between the brackets of an attribute selector, or in an argument and of which
kind; and since an argument stands in a selector only, no stack is needed. What tokens are read as
takes a selector back to a selector and an argument up to its end (`Reads.ends`).
-/

set_option autoImplicit false

namespace CssSelector

open Text

inductive Role where
  /-- A part of a compound, or white space beside one. -/
  | plain
  /-- A comma, or a combinator that is not white space. -/
  | separator
  /-- The name of a pseudo-class or a pseudo-element. -/
  | name
  /-- The parenthesis that opens the argument of a known name. -/
  | opening
  | closing
  /-- Between brackets. -/
  | bracketed
  | formula
  /-- The keyword `of` behind a formula. -/
  | keyword
  /-- In an argument that is a string, an identifier or a number. -/
  | literal
  /-- In the argument of a name that is not known, with its parentheses. -/
  | loose
  deriving DecidableEq, Repr

/-- Where a token stands, told by those before it. -/
inductive Zone where
  | selector
  /-- Right behind a colon or two. -/
  | colons (category : Category)
  /-- Right behind a name. -/
  | named (category : Category) (name : String)
  | brackets
  | formula
  /-- A formula that the keyword may end, with the kind of the token before. -/
  | formulaOf (previous : Token.Kind)
  | literal
  | loose (depth : Nat)
  deriving DecidableEq, Repr

namespace Zone

def ofGrammar : ArgumentGrammar → Zone
  | .selector => selector
  | .formula => formula
  | .formulaOfSelector => formulaOf .leftParen
  | _ => literal

/-- At the opening parenthesis behind a name. No token is read as the argument of a name that has
none. -/
def argument (d : Dialect) (category : Category) (name : String) : Role × Zone :=
  match d.signature? category name with
  | none => (.loose, loose 0)
  | some σ => (.opening, ofGrammar (σ.argument.getD .noArgument))

def inSelector (t : Token) : Role × Zone :=
  match t.kind with
  | .colon => (.plain, colons .pseudoClass)
  | .doubleColon => (.plain, colons .pseudoElement)
  | .leftBracket => (.plain, brackets)
  | .comma | .combinator => (.separator, selector)
  | .rightParen => (.closing, selector)
  | _ => (.plain, selector)

def inLoose (depth : Nat) (t : Token) : Role × Zone :=
  match t.kind, depth with
  | .leftParen, _ => (.loose, loose (depth + 1))
  | .rightParen, 0 => (.loose, selector)
  | .rightParen, depth + 1 => (.loose, loose depth)
  | _, _ => (.loose, loose depth)

def next (d : Dialect) (z : Zone) (t : Token) : Role × Zone :=
  match z with
  | selector => inSelector t
  | colons category =>
    if t.kind = .ident then (.name, named category t.text) else inSelector t
  | named category name =>
    if t.kind = .leftParen then argument d category name else inSelector t
  | brackets =>
    if t.kind = .rightBracket then (.plain, selector) else (.bracketed, brackets)
  | formula => if t.kind = .rightParen then (.closing, selector) else (.formula, formula)
  | formulaOf previous =>
    if t.kind = .rightParen then (.closing, selector)
    else if t.kind = .ident ∧ sameLetters t.text "of" ∧ previous = .whitespace then
      (.keyword, selector)
    else (.formula, formulaOf t.kind)
  | literal => if t.kind = .rightParen then (.closing, selector) else (.literal, literal)
  | loose depth => inLoose depth t

def after (d : Dialect) (z : Zone) : List Token → Zone
  | [] => z
  | t :: ts => ((z.next d t).2).after d ts

def roles (d : Dialect) (z : Zone) : List Token → List (Token × Role)
  | [] => []
  | t :: ts => (t, (z.next d t).1) :: ((z.next d t).2).roles d ts

section
variable {d : Dialect} {z : Zone} {t : Token} {xs ys : List Token}

theorem after_append : z.after d (xs ++ ys) = (z.after d xs).after d ys := by
  induction xs generalizing z with
  | nil => rfl
  | cons t xs ih => exact ih

theorem roles_append : z.roles d (xs ++ ys) = z.roles d xs ++ (z.after d xs).roles d ys := by
  induction xs generalizing z with
  | nil => rfl
  | cons t xs ih => exact congrArg (_ :: ·) ih

@[simp] theorem map_fst_roles : (z.roles d xs).map Prod.fst = xs := by
  induction xs generalizing z with
  | nil => rfl
  | cons t xs ih => exact congrArg (t :: ·) ih

theorem exists_split_of_mem_roles {a : Token × Role} (h : a ∈ z.roles d xs) :
    ∃ ys zs, xs = ys ++ a.1 :: zs ∧ ((z.after d ys).next d a.1).1 = a.2 := by
  induction xs generalizing z with
  | nil => contradiction
  | cons t xs ih =>
    rcases List.mem_cons.1 h with rfl | h
    · exact ⟨[], xs, rfl, rfl⟩
    · obtain ⟨ys, zs, rfl, hrole⟩ := ih h
      exact ⟨t :: ys, zs, rfl, hrole⟩

theorem fst_mem_of_mem_roles {a : Token × Role} (h : a ∈ z.roles d xs) : a.1 ∈ xs := by
  obtain ⟨ys, zs, rfl, -⟩ := exists_split_of_mem_roles h
  simp

/-- Between the parts of a compound, or beside it. -/
def Open : Zone → Prop
  | selector | named .. => True
  | _ => False

theorem open_selector : Open selector := trivial

theorem Open.next_eq (h : z.Open) (ht : t.kind ≠ .leftParen) : z.next d t = inSelector t := by
  cases z with
  | selector => rfl
  | named => exact if_neg ht
  | _ => exact h.elim

def Closes (d : Dialect) (z : Zone) : Prop :=
  ∀ t : Token, t.kind = .rightParen → z.next d t = (.closing, selector)

theorem Open.closes (h : z.Open) : z.Closes d := by
  intro t ht
  rw [h.next_eq (by simp [ht]), inSelector, ht]

theorem closes_formula : Closes d formula := fun _ ht => if_pos ht

theorem closes_formulaOf {previous : Token.Kind} : Closes d (formulaOf previous) :=
  fun _ ht => if_pos ht

theorem closes_literal : Closes d literal := fun _ ht => if_pos ht

theorem Open.next_colons {category : Category} (h : z.Open)
    (ht : t.kind.itemStart? = some (.pseudo category)) : z.next d t = (.plain, colons category) := by
  have hk := Token.Kind.itemStart?_eq_some.1 ht
  rw [h.next_eq (hk ▸ ItemStart.kind_ne_leftParen _), inSelector, hk]
  cases category <;> rfl

theorem next_opening {category : Category} {name : String} {σ : Signature} {g : ArgumentGrammar}
    (hσ : d.signature? category name = some σ) (hg : σ.argument = some g) (ht : t.kind = .leftParen) :
    (named category name).next d t = (.opening, ofGrammar g) := by
  rw [next, if_pos ht, argument, hσ]
  dsimp only
  rw [hg, Option.getD_some]

theorem next_keyword (ht : t.kind = .ident) (hof : sameLetters t.text "of") :
    (formulaOf .whitespace).next d t = (.keyword, selector) := by
  rw [next, if_neg (by simp [ht]), if_pos ⟨ht, hof, rfl⟩]

/-! Tokens of one role. -/

theorem after_of_fixed {ρ : Role} (h : ∀ t ∈ xs, z.next d t = (ρ, z)) :
    z.after d xs = z ∧ ∀ a ∈ z.roles d xs, a.2 = ρ := by
  induction xs with
  | nil => exact ⟨rfl, nofun⟩
  | cons t xs ih =>
    obtain ⟨ht, hxs⟩ := List.forall_mem_cons.1 h
    obtain ⟨hafter, hroles⟩ := ih hxs
    rw [after, roles, ht]
    exact ⟨hafter, List.forall_mem_cons.2 ⟨rfl, hroles⟩⟩

theorem after_brackets (h : ∀ t ∈ xs, t.kind ≠ .rightBracket) :
    brackets.after d xs = brackets ∧ ∀ a ∈ brackets.roles d xs, a.2 = .bracketed :=
  after_of_fixed fun t ht => if_neg (h t ht)

theorem Open.spaces (h : z.Open) (hs : Parse.Spaces xs) :
    (z.after d xs).Open ∧ ∀ a ∈ z.roles d xs, a.2 = .plain := by
  cases xs with
  | nil => exact ⟨h, nofun⟩
  | cons w xs =>
    have hnext (t : Token) (ht : t.kind = .whitespace) : inSelector t = (.plain, selector) := by
      rw [inSelector, ht]
    obtain ⟨hw, hxs⟩ := List.forall_mem_cons.1 hs
    have hfirst : z.next d w = (.plain, selector) := by
      rw [h.next_eq (by simp [hw]), hnext w hw]
    obtain ⟨hafter, hroles⟩ :=
      after_of_fixed (d := d) (z := selector) (ρ := .plain) fun t ht => hnext t (hxs t ht)
    rw [after, roles, hfirst]
    dsimp only
    rw [hafter]
    exact ⟨trivial, List.forall_mem_cons.2 ⟨rfl, hroles⟩⟩

/-! Parentheses in the argument of a name that is not known. -/

theorem next_loose_open (h : t.kind = .leftParen) (depth : Nat) :
    (loose depth).next d t = (.loose, loose (depth + 1)) := by
  simp [next, inLoose, h]

theorem next_loose_close (h : t.kind = .rightParen) (depth : Nat) :
    (loose (depth + 1)).next d t = (.loose, loose depth) := by
  simp [next, inLoose, h]

theorem next_loose_last (h : t.kind = .rightParen) : (loose 0).next d t = (.loose, selector) := by
  simp [next, inLoose, h]

theorem next_loose (ho : t.kind ≠ .leftParen) (hc : t.kind ≠ .rightParen) (depth : Nat) :
    (loose depth).next d t = (.loose, loose depth) := by
  simp [next, inLoose, hc]

end
end Zone

namespace Parse
variable {d : Dialect} {xs : List Token}

theorem Balanced.after (h : Balanced xs) (depth : Nat) :
    (Zone.loose depth).after d xs = .loose depth ∧
      ∀ a ∈ (Zone.loose depth).roles d xs, a.2 = .loose := by
  induction h generalizing depth with
  | nil => exact ⟨rfl, nofun⟩
  | @token t ts ho hc _ ih =>
    obtain ⟨hafter, hroles⟩ := ih depth
    rw [Zone.after, Zone.roles, Zone.next_loose ho hc]
    exact ⟨hafter, List.forall_mem_cons.2 ⟨rfl, hroles⟩⟩
  | @parens o t ts us ho _ ht _ ihx ihy =>
    obtain ⟨hafter, hroles⟩ := ihx (depth + 1)
    obtain ⟨hafter', hroles'⟩ := ihy depth
    rw [Zone.after, Zone.roles, Zone.next_loose_open ho, Zone.after_append, Zone.roles_append, hafter,
      Zone.after, Zone.roles, Zone.next_loose_close ht]
    simp only [List.forall_mem_cons, List.forall_mem_append]
    exact ⟨hafter', trivial, hroles, trivial, hroles'⟩

theorem Balanced.roles_argument (h : Balanced xs) {category : Category} {name : String} {o t : Token}
    (hσ : d.signature? category name = none) (ho : o.kind = .leftParen) (ht : t.kind = .rightParen) :
    ∃ us, (Zone.named category name).roles d (o :: (xs ++ [t])) = (o, .loose) :: us ∧
      ∀ a ∈ (o, Role.loose) :: us, a.2 = .loose := by
  rw [Zone.roles, Zone.next, if_pos ho, Zone.argument, hσ, Zone.roles_append, (h.after 0).1, Zone.roles,
    Zone.next_loose_last ht]
  refine ⟨_, rfl, ?_⟩
  simp only [List.forall_mem_cons, List.forall_mem_append]
  exact ⟨trivial, (h.after 0).2, trivial, nofun⟩

theorem StandsInFormula.kind_ne {t : Token} (h : StandsInFormula t) : t.kind ≠ .rightParen := by
  intro hk
  have hs := h.1
  simp [formulaText?, hk] at hs

/-- The tokens of a formula are its own whether the keyword may come behind it or not. -/
theorem ReadsFormula.after {f : Formula} (h : ReadsFormula xs f) :
    (Zone.formula.after d xs = .formula ∧ ∀ a ∈ Zone.formula.roles d xs, a.2 = .formula) ∧
      ∀ previous, (Zone.formulaOf previous).after d xs = .formulaOf (lastKind previous xs) ∧
        ∀ a ∈ (Zone.formulaOf previous).roles d xs, a.2 = .formula := by
  have hstands : ∀ t ∈ xs, StandsInFormula t := fun t ht => h.stands ht
  refine ⟨Zone.after_of_fixed fun t ht => if_neg (hstands t ht).kind_ne, ?_⟩
  clear h
  induction xs with
  | nil => exact fun previous => ⟨rfl, nofun⟩
  | cons t xs ih =>
    intro previous
    obtain ⟨ht, hxs⟩ := List.forall_mem_cons.1 hstands
    have hnext : (Zone.formulaOf previous).next d t = (.formula, .formulaOf t.kind) := by
      rw [Zone.next, if_neg ht.kind_ne, if_neg fun hof => ht.2 ⟨hof.1, hof.2.1⟩]
    obtain ⟨hafter, hroles⟩ := ih hxs t.kind
    rw [Zone.after, Zone.roles, hnext]
    exact ⟨hafter, List.forall_mem_cons.2 ⟨rfl, hroles⟩⟩

theorem ReadsLiteral.after {kind : Token.Kind} {t : Token} (h : ReadsLiteral kind xs t)
    (hk : kind ≠ .rightParen) :
    Zone.literal.after d xs = .literal ∧ ∀ a ∈ Zone.literal.roles d xs, a.2 = .literal := by
  obtain ⟨hs₁, ht, hs₂⟩ := h
  refine Zone.after_of_fixed fun u hu => if_neg ?_
  obtain hu | hu := List.mem_append.1 hu
  · simp [hs₁ u hu]
  · obtain rfl | hu := List.mem_cons.1 hu
    · rwa [ht]
    · simp [hs₂ u hu]

theorem ReadsAttribute.after {a : Attribute} {ms : List Mention} (h : ReadsAttribute xs a ms) :
    ∃ ys close, xs = ys ++ [close] ∧ close.kind = .rightBracket ∧
      (Zone.brackets.after d ys = .brackets ∧
        ∀ b ∈ Zone.brackets.roles d ys, b.2 = .bracketed) := by
  have hspaces {s : List Token} (hs : Spaces s) : ∀ t ∈ s, t.kind ≠ .rightBracket :=
    fun t ht => by simp [hs t ht]
  cases h with
  | @presence s₁ s₂ name close hs₁ hn _ hs₂ hc =>
    refine ⟨s₁ ++ name :: s₂, close, by simp, hc, Zone.after_brackets ?_⟩
    simp only [List.forall_mem_append, List.forall_mem_cons]
    exact ⟨hspaces hs₁, by simp [hn], hspaces hs₂⟩
  | @comparison s₁ s₂ s₃ s₄ ys name operator value close _ _ _ hs₁ hn _ hs₂ ho _ hs₃ hv hs₄ hm hc =>
    refine ⟨s₁ ++ name :: (s₂ ++ operator :: (s₃ ++ value :: (s₄ ++ ys))), close, by simp, hc,
      Zone.after_brackets ?_⟩
    have hys : ∀ t ∈ ys, t.kind ≠ .rightBracket := by
      cases hm with
      | none => nofun
      | some ht hs => exact List.forall_mem_cons.2 ⟨by simp [ht], hspaces hs⟩
    simp only [List.forall_mem_append, List.forall_mem_cons]
    exact ⟨hspaces hs₁, by simp [hn], hspaces hs₂, by simp [ho], hspaces hs₃,
      by rcases hv with hv | hv <;> simp [hv], hspaces hs₄, hys⟩

def Phrase.Starts (z : Zone) : Phrase → Prop
  | .argument category name _ => z = .named category name
  | .body g _ => z = .ofGrammar g
  | _ => z.Open

/-- Where they end. An argument goes on to its parenthesis. -/
def Phrase.Ends (d : Dialect) (z : Zone) : Phrase → Prop
  | .body .. => z.Closes d
  | _ => z.Open

theorem Reads.ends {c : Context} {p : Phrase} {ms : List Mention} (h : Reads c xs p ms) {z : Zone}
    (hz : p.Starts z) : p.Ends c.dialect (z.after c.dialect xs) := by
  induction h generalizing z with
  | selector hs _ _ ihx ihy =>
    rw [Zone.after_append, Zone.after_append]
    exact ihy (ihx (Zone.Open.spaces hz hs).1)
  | noRules | noLinks | noItems => exact hz
  | bare | bareUnknown =>
    cases hz
    trivial
  | rules ht hs _ _ ihx ihy =>
    rw [Zone.after, Zone.Open.next_eq hz (by simp [ht]), Zone.inSelector, ht, Zone.after_append,
      Zone.after_append]
    exact ihy (ihx (Zone.open_selector.spaces hs).1)
  | rule _ _ hs ihx ihy =>
    rw [Zone.after_append, Zone.after_append]
    exact (Zone.Open.spaces (ihy (ihx hz)) hs).1
  | links _ _ ihx ihy =>
    rw [Zone.after_append]
    exact ihy (ihx hz)
  | descendant hs _ _ ih =>
    rw [Zone.after_append]
    exact ih (Zone.Open.spaces hz hs).1
  | combinator hs₁ ht _ hs₂ _ ih =>
    rw [Zone.after_append, Zone.after, (Zone.Open.spaces hz hs₁).1.next_eq (by simp [ht]),
      Zone.inSelector, ht, Zone.after_append]
    exact ih (Zone.open_selector.spaces hs₂).1
  | compound _ _ ih => exact ih hz
  | items _ _ _ _ ihx ihy =>
    rw [Zone.after_append]
    exact ihy (ihx hz)
  | tagName ht | universal ht | idName ht =>
    rw [Zone.after, Zone.Open.next_eq hz (by simp [ht]), Zone.inSelector, ht]
    trivial
  | className ho ht =>
    rw [Zone.after, Zone.Open.next_eq hz (by simp [ho]), Zone.inSelector, ho, Zone.after, Zone.next,
      Zone.inSelector, ht]
    trivial
  | «attribute» ho hx =>
    obtain ⟨ys, close, rfl, hclose, hafter, -⟩ := hx.after (d := c.dialect)
    rw [Zone.after, Zone.Open.next_eq hz (by simp [ho]), Zone.inSelector, ho, Zone.after_append]
    dsimp only
    rw [hafter, Zone.after, Zone.next, if_pos hclose]
    trivial
  | @pseudo o t category _ _ _ ho ht _ _ ih =>
    rw [Zone.after, Zone.Open.next_colons hz ho, Zone.after, Zone.next, if_pos ht]
    exact ih rfl
  | @argument category name σ g o t xs _ _ hσ hg ho _ ht ih =>
    cases hz
    rw [Zone.after, Zone.next_opening hσ hg ho, Zone.after_append, Zone.after, ih rfl t ht]
    trivial
  | @loose category name o t xs _ hσ ho hx ht _ =>
    cases hz
    rw [Zone.after, Zone.next, if_pos ho, Zone.argument, hσ, Zone.after_append]
    dsimp only
    rw [(hx.after 0).1, Zone.after, Zone.next_loose_last ht]
    trivial
  | selectorBody _ ih =>
    cases hz
    exact Zone.Open.closes (ih Zone.open_selector)
  | formula hx =>
    cases hz
    rw [Zone.ofGrammar, hx.after.1.1]
    exact Zone.closes_formula
  | formulaAlone hx =>
    cases hz
    rw [Zone.ofGrammar, (hx.after.2 _).1]
    exact Zone.closes_formulaOf
  | @formulaOf xs ys w t _ _ _ hx hw ht hof _ ih =>
    cases hz
    rw [show xs ++ w :: t :: ys = xs ++ [w] ++ t :: ys by simp, Zone.after_append, Zone.ofGrammar,
      (hx.after.2 _).1, lastKind_append, hw, Zone.after, Zone.next_keyword ht hof]
    exact Zone.Open.closes (ih Zone.open_selector)
  | string hx | identifier hx | number hx =>
    cases hz
    change Zone.Closes _ (Zone.literal.after _ _)
    rw [(hx.after (by decide)).1]
    exact Zone.closes_literal

end Parse
end CssSelector
