import CssSelector.Proofs.Warnings

set_option autoImplicit false

namespace CssSelector

def ArgumentGrammar.widen (wide : Bool) : ArgumentGrammar → ArgumentGrammar
  | .formula => if wide then .formulaOfSelector else .formula
  | g => g

def Signature.widen (wide : Bool) (s : Signature) : Signature :=
  { s with argument := s.argument.map (.widen wide) }

@[simp] theorem ArgumentGrammar.widen_false (g : ArgumentGrammar) : g.widen false = g := by
  cases g <;> rfl

@[simp] theorem Signature.widen_false (s : Signature) : s.widen false = s := by
  obtain ⟨_, _ | _⟩ := s <;> simp [widen]

/-! Trees in which `wide` tells the names that take the clause. None is added: only the kind of the
argument changes. -/

section
variable (wide : Category → String → Bool)

mutual

def Selector.widen : Selector → Selector
  | ⟨rs⟩ => ⟨widenRules rs⟩

def widenRules : List Rule → List Rule
  | [] => []
  | r :: rs => r.widen :: widenRules rs

def Rule.widen : Rule → Rule
  | ⟨is⟩ => ⟨widenItems is⟩

def widenItems : List Item → List Item
  | [] => []
  | i :: is => i.widen :: widenItems is

def Item.widen : Item → Item
  | .pseudo category name (some a) => .pseudo category name (some (a.widen (wide category name)))
  | i => i

def Argument.widen (own : Bool) : Argument → Argument
  | .selector s => .selector s.widen
  | .formula f => if own then .formulaOfSelector f none else .formula f
  | .formulaOfSelector f (some s) => .formulaOfSelector f (some s.widen)
  | a => a

end

theorem widenItems_append (is js : List Item) :
    widenItems wide (is ++ js) = widenItems wide is ++ widenItems wide js := by
  induction is with
  | nil => rfl
  | cons i is ih => simp [widenItems, ih]

theorem Item.start?_widen (i : Item) : (i.widen wide).start? = i.start? := by
  cases i with
  | pseudo _ _ a => cases a <;> rfl
  | _ => rfl

theorem ItemStart.mayFollow_widen (k : ItemStart) (previous : Option Item) :
    k.mayFollow (previous.map (Item.widen wide)) = k.mayFollow previous := by
  rcases previous with _ | i
  · rfl
  · cases i with
    | pseudo category _ a => cases category <;> cases a <;> cases k <;> rfl
    | _ => rfl

end

mutual

theorem Selector.widen_none (s : Selector) : s.widen (fun _ _ => false) = s := by
  obtain ⟨rs⟩ := s
  exact congrArg Selector.mk (widenRules_none rs)

theorem widenRules_none : ∀ rs : List Rule, widenRules (fun _ _ => false) rs = rs
  | [] => rfl
  | r :: rs => congrArg₂ List.cons (Rule.widen_none r) (widenRules_none rs)

theorem Rule.widen_none (r : Rule) : r.widen (fun _ _ => false) = r := by
  obtain ⟨is⟩ := r
  exact congrArg Rule.mk (widenItems_none is)

theorem widenItems_none : ∀ is : List Item, widenItems (fun _ _ => false) is = is
  | [] => rfl
  | i :: is => congrArg₂ List.cons (Item.widen_none i) (widenItems_none is)

theorem Item.widen_none : ∀ i : Item, i.widen (fun _ _ => false) = i
  | .pseudo category name (some a) =>
    congrArg (Item.pseudo category name ∘ some) (Argument.widen_none a)
  | .pseudo _ _ none => rfl
  | .tagName _ => rfl
  | .universal => rfl
  | .className _ => rfl
  | .idName _ => rfl
  | .attribute _ => rfl
  | .combinator _ => rfl

theorem Argument.widen_none : ∀ a : Argument, a.widen (fun _ _ => false) false = a
  | .selector s => congrArg Argument.selector (Selector.widen_none s)
  | .formulaOfSelector f (some s) =>
    congrArg (Argument.formulaOfSelector f ∘ some) (Selector.widen_none s)
  | .formulaOfSelector _ none => rfl
  | .string _ => rfl
  | .number _ => rfl
  | .identifier _ => rfl
  | .formula _ => rfl

end

namespace Dialect

/-- Every name of the first dialect is known to the second, with its signature or a wider one. -/
structure Extends (d d' : Dialect) (wide : Category → String → Bool) : Prop where
  signature : ∀ category name σ, d.signature? category name = some σ →
    d'.signature? category name = some (σ.widen (wide category name))
  attributes : d.attributes = d'.attributes
  combinators : d.combinators = d'.combinators

def Strict (d : Dialect) : Prop := ∀ category name, d.policyOn (.pseudo category name) = .reject

def KnowsNames (d : Dialect) (ms : List Mention) : Prop :=
  ∀ m ∈ ms, ∀ category name, m.feature = .pseudo category name → d.recognises m.feature

section
variable {d d' : Dialect} {wide : Category → String → Bool} {ms ns : List Mention}
  {ws : List Warning}

theorem Strict.knowsNames (hd : d.Strict) (h : d.Passes ms ws) : d.KnowsNames ms := by
  intro m hm category name hf
  have hadmits := h.1 m hm
  simpa [admits, hf, hd category name] using hadmits

theorem KnowsNames.append_iff : d.KnowsNames (ms ++ ns) ↔ d.KnowsNames ms ∧ d.KnowsNames ns :=
  List.forall_mem_append

theorem KnowsNames.tail {m : Mention} (h : d.KnowsNames (m :: ms)) : d.KnowsNames ms :=
  (List.forall_mem_cons.1 h).2

theorem Extends.recognises_eq (h : d.Extends d' wide) {f : Feature}
    (hf : ∀ category name, f = .pseudo category name → d.recognises f) :
    d'.recognises f = d.recognises f := by
  cases f with
  | pseudo category name =>
    have hd := hf category name rfl
    obtain ⟨σ, hσ⟩ := Option.isSome_iff_exists.1 hd
    exact (Option.isSome_iff_exists.2 ⟨_, h.signature category name σ hσ⟩).trans hd.symm
  | operator | modifier => simp only [recognises, h.attributes]
  | combinator => simp only [recognises, h.combinators]

theorem Extends.admits_and_flags (h : d.Extends d' wide) {f : Feature}
    (hf : ∀ category name, f = .pseudo category name → d.recognises f) :
    d'.admits f = d.admits f ∧ d'.flags f = d.flags f := by
  have hr := h.recognises_eq hf
  have hpolicy : d.recognises f ∨ d'.policyOn f = d.policyOn f := by
    cases f with
    | pseudo category name => exact .inl (hf category name rfl)
    | operator | modifier => exact .inr (congrArg AttributeSwitches.unknown h.attributes.symm)
    | combinator => exact .inr (congrArg CombinatorSwitches.unknown h.combinators.symm)
  obtain hd | hp := hpolicy
  · simp [admits, flags, hr, hd]
  · rw [admits, admits, flags, flags, hr, hp]
    exact ⟨rfl, rfl⟩

theorem Extends.passes (h : d.Extends d' wide) (hms : d.KnowsNames ms) (hp : d.Passes ms ws) :
    d'.Passes ms ws := by
  obtain ⟨hm, rfl⟩ := hp
  have hsame (m : Mention) (hmem : m ∈ ms) := h.admits_and_flags (hms m hmem)
  refine ⟨fun m hmem => (hsame m hmem).1.trans (hm m hmem), ?_⟩
  rw [warnings, warnings, List.filter_congr fun m hmem => (hsame m hmem).2]

end

end Dialect

namespace Parse

/-- What the same tokens are read as. The grammar of a body is that of a name that takes the clause,
or of another one. -/
def Phrase.widen (wide : Category → String → Bool) (own : Bool) : Phrase → Phrase
  | .selector s => .selector (s.widen wide)
  | .rules rs => .rules (widenRules wide rs)
  | .rule r => .rule (r.widen wide)
  | .link is => .link (widenItems wide is)
  | .links is => .links (widenItems wide is)
  | .compound is => .compound (widenItems wide is)
  | .items previous is => .items (previous.map (Item.widen wide)) (widenItems wide is)
  | .item i => .item (i.widen wide)
  | .argument category name a =>
    .argument category name (a.map (Argument.widen wide (wide category name)))
  | .body g a => .body (g.widen own) (a.widen wide own)

/-- Tokens that mention known names only are read as the same phrase, widened. The source may be any,
because only arguments of unknown names are cut from it. -/
theorem Reads.widen {c c' : Context} {wide : Category → String → Bool} {xs : List Token}
    {p : Phrase} {ms : List Mention} (h : Reads c xs p ms) (hc : c.dialect.Extends c'.dialect wide)
    (hp : p.Known c.dialect) (hms : c.dialect.KnowsNames ms) (own : Bool) :
    Reads c' xs (p.widen wide own) ms := by
  induction h generalizing own with
  | selector hs _ _ ihx ihy =>
    obtain ⟨hms, hns⟩ := Dialect.KnowsNames.append_iff.1 hms
    exact .selector hs (ihx trivial hms own) (ihy trivial hns own)
  | noRules => exact .noRules
  | rules ht hs _ _ ihx ihy =>
    obtain ⟨hms, hns⟩ := Dialect.KnowsNames.append_iff.1 hms
    exact .rules ht hs (ihx trivial hms own) (ihy trivial hns own)
  | @rule s xs ys is js _ _ _ _ hs ihx ihy =>
    obtain ⟨hms, hns⟩ := Dialect.KnowsNames.append_iff.1 hms
    rw [Phrase.widen, Rule.widen, widenItems_append]
    exact .rule (ihx trivial hms own) (ihy trivial hns own) hs
  | noLinks => exact .noLinks
  | links _ _ ihx ihy =>
    obtain ⟨hms, hns⟩ := Dialect.KnowsNames.append_iff.1 hms
    rw [Phrase.widen, widenItems_append]
    exact .links (ihx trivial hms own) (ihy trivial hns own)
  | @descendant s xs is ms hs hne hx ih =>
    obtain ⟨t, ys, k, rfl, -⟩ := hx.compound_head
    exact .descendant hs hne (ih trivial hms.tail own)
  | combinator hs₁ ht hk hs₂ _ ih => exact .combinator hs₁ ht hk hs₂ (ih trivial hms.tail own)
  | @compound xs is _ hne _ ih =>
    refine .compound ?_ (ih trivial hms own)
    cases is with
    | nil => contradiction
    | cons => exact List.cons_ne_nil _ _
  | noItems => exact .noItems
  | @items previous i is k _ _ _ _ hi hf _ _ ihx ihy =>
    obtain ⟨hms, hns⟩ := Dialect.KnowsNames.append_iff.1 hms
    have hi' := (i.start?_widen wide).trans hi
    have hf' : k.mayFollow (previous.map (Item.widen wide)) := by rwa [k.mayFollow_widen]
    exact .items hi' hf' (ihx trivial hms own) (ihy trivial hns own)
  | tagName ht hne => exact .tagName ht hne
  | universal ht => exact .universal ht
  | className ho ht hne => exact .className ho ht hne
  | idName ht hne => exact .idName ht hne
  | «attribute» ho hx => exact .attribute ho hx
  | @pseudo o t category xs a ms ho ht hne _ ih =>
    have hknown := hms _ List.mem_cons_self category t.text rfl
    have hr := ih hknown hms.tail own
    cases a with
    | none => exact .pseudo ho ht hne hr
    | some => exact .pseudo ho ht hne hr
  | bare h hb => exact .bare (hc.signature _ _ _ h) hb
  | @argument category name σ g _ _ _ _ _ h hg ho _ ht ih =>
    have hg' : (σ.widen (wide category name)).argument = some (g.widen (wide category name)) :=
      congrArg (Option.map _) hg
    exact .argument (hc.signature _ _ _ h) hg' ho (ih trivial hms (wide category name)) ht
  | bareUnknown h =>
    rw [Phrase.Known, h] at hp
    contradiction
  | loose h _ _ _ _ =>
    rw [Phrase.Known, h] at hp
    contradiction
  | selectorBody _ ih => exact .selectorBody (ih trivial hms own)
  | formula hx =>
    -- the one body that is read by another grammar, as a formula without its clause
    cases own with
    | true => exact .formulaAlone hx
    | false => exact .formula hx
  | formulaAlone hx => exact .formulaAlone hx
  | formulaOf hx hw ht hof _ ih => exact .formulaOf hx hw ht hof (ih trivial hms own)
  | string hx => exact .string hx
  | identifier hx => exact .identifier hx
  | number hx hv => exact .number hx hv

end Parse

namespace Dialect

open Parse

/-- A dialect that extends a strict one accepts what that one accepts. -/
theorem parse_widen {d d' : Dialect} {wide : Category → String → Bool} (h : d.Extends d' wide)
    (hd : d.Strict) {text : String} {r : Reading} (hr : d.parse text = .ok r) :
    d'.parse text = .ok ⟨r.selector.widen wide, r.warnings⟩ := by
  obtain ⟨ts, ht, ms, hreads, hp⟩ := parse_eq_ok.1 hr
  have hms := hd.knowsNames hp
  refine parse_eq_ok.2 ⟨ts, ht, ms, ?_, h.passes hms hp⟩
  exact hreads.widen h trivial hms false

end Dialect

end CssSelector
