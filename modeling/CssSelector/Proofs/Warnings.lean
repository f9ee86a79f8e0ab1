import CssSelector.Proofs.Move
import CssSelector.Proofs.Reads.Complete
import CssSelector.Proofs.Tokens
import Mathlib

/-!
The warnings of a parse can be told from the tree: there is one for each construct in it that the
dialect flags, in the order of the tree, and that is the order of the text
(`Dialect.warnings_of_parse`).
-/

set_option autoImplicit false

namespace CssSelector

def Attribute.features (a : Attribute) : List Feature :=
  a.operator.toList.map .operator ++ a.modifier.toList.map .modifier

/-! The constructs of a tree that a dialect may not recognise. -/

mutual

def Selector.features : Selector → List Feature
  | ⟨rs⟩ => featuresOfRules rs

def featuresOfRules : List Rule → List Feature
  | [] => []
  | r :: rs => r.features ++ featuresOfRules rs

def Rule.features : Rule → List Feature
  | ⟨is⟩ => featuresOfItems is

def featuresOfItems : List Item → List Feature
  | [] => []
  | i :: is => i.features ++ featuresOfItems is

/-- The operator of an attribute comes before its modifier, and a name before its argument. -/
def Item.features : Item → List Feature
  | .attribute a => a.features
  | .pseudo category name none => [.pseudo category name]
  | .pseudo category name (some a) => .pseudo category name :: a.features
  | .combinator k => [.combinator k]
  | _ => []

def Argument.features : Argument → List Feature
  | .selector s => s.features
  | .formulaOfSelector _ (some s) => s.features
  | _ => []

end

theorem featuresOfItems_append (is js : List Item) :
    featuresOfItems (is ++ js) = featuresOfItems is ++ featuresOfItems js := by
  induction is with
  | nil => rfl
  | cons i is ih => simp [featuresOfItems, ih]

namespace Parse

def Phrase.features : Phrase → List Feature
  | .selector s => s.features
  | .rules rs => featuresOfRules rs
  | .rule r => r.features
  | .link is => featuresOfItems is
  | .links is => featuresOfItems is
  | .compound is => featuresOfItems is
  | .items _ is => featuresOfItems is
  | .item i => i.features
  | .argument _ _ a => (a.map Argument.features).getD []
  | .body _ a => a.features

/-- Where the mentions of a phrase may be. The token in front of a compound is never the construct
itself, and is left to a combinator before it. -/
def Phrase.places (xs : List Token) : Phrase → List Nat
  | .compound _ => xs.tail.map Token.position
  | .items .. => xs.tail.map Token.position
  | .item _ => xs.tail.map Token.position
  | _ => xs.map Token.position

theorem Phrase.places_subset (xs : List Token) (p : Phrase) :
    p.places xs ⊆ xs.map Token.position := by
  have htail := (xs.tail_sublist.map Token.position).subset
  cases p with
  | compound | items | item => exact htail
  | _ => exact List.Subset.refl _

section
variable {c : Context} {xs : List Token} {p : Phrase} {ms : List Mention}

theorem ReadsAttribute.features {a : Attribute} (h : ReadsAttribute xs a ms) :
    ms.map Mention.feature = a.features := by
  cases h with
  | presence => rfl
  | comparison _ _ _ _ _ _ _ _ _ hm _ => cases hm <;> rfl

theorem Reads.features (h : Reads c xs p ms) : ms.map Mention.feature = p.features := by
  induction h with
  | selector _ _ _ ihx ihy => exact List.map_append.trans (congrArg₂ (· ++ ·) ihx ihy)
  | rules _ _ _ _ ihx ihy => exact List.map_append.trans (congrArg₂ (· ++ ·) ihx ihy)
  | items _ _ _ _ ihx ihy => exact List.map_append.trans (congrArg₂ (· ++ ·) ihx ihy)
  | rule _ _ _ ihx ihy =>
    rw [List.map_append, ihx, ihy]
    exact (featuresOfItems_append _ _).symm
  | links _ _ ihx ihy =>
    rw [List.map_append, ihx, ihy]
    exact (featuresOfItems_append _ _).symm
  | descendant _ _ _ ih => exact congrArg (_ :: ·) ih
  | combinator _ _ _ _ _ ih => exact congrArg (_ :: ·) ih
  | compound _ _ ih => exact ih
  | «attribute» _ hx => exact hx.features
  | @pseudo _ _ _ _ a _ _ _ _ _ ih => cases a <;> exact congrArg (_ :: ·) ih
  | argument _ _ _ _ _ ih => exact ih
  | selectorBody _ ih => exact ih
  | formulaOf _ _ _ _ _ ih => exact ih
  | noRules | noLinks | noItems | tagName | universal | className | idName | bare | bareUnknown |
      loose | formula | formulaAlone | string | identifier | number => rfl

theorem ReadsModifier.places {m : Option String} (h : ReadsModifier xs m ms) :
    (ms.map Mention.position).Sublist (xs.map Token.position) := by
  cases h with
  | none => exact List.nil_sublist _
  | some => exact (List.nil_sublist _).cons_cons _

theorem ReadsAttribute.places {a : Attribute} (h : ReadsAttribute xs a ms) :
    (ms.map Mention.position).Sublist (xs.map Token.position) := by
  cases h with
  | presence => exact List.nil_sublist _
  | comparison _ _ _ _ _ _ _ _ _ hm _ =>
    simp only [List.map_append, List.map_cons]
    refine List.sublist_append_of_sublist_right (.cons _ ?_)
    refine List.sublist_append_of_sublist_right (.cons_cons _ ?_)
    refine List.sublist_append_of_sublist_right (.cons _ ?_)
    exact List.sublist_append_of_sublist_right (List.sublist_append_of_sublist_left hm.places)

/-- Mentions are at tokens, no two of them at one, in the order of the text. -/
theorem Reads.places (h : Reads c xs p ms) : (ms.map Mention.position).Sublist (p.places xs) := by
  induction h with
  | noRules | noLinks | noItems | tagName | universal | className | idName | bare | bareUnknown |
      loose | formula | formulaAlone | string | identifier | number => exact List.nil_sublist _
  | selector _ _ _ ihx ihy =>
    simp only [Phrase.places, List.map_append]
    exact List.sublist_append_of_sublist_right (.append ihx ihy)
  | rules _ _ _ _ ihx ihy =>
    simp only [Phrase.places, List.map_append, List.map_cons]
    exact .cons _ (List.sublist_append_of_sublist_right (.append ihx ihy))
  | @rule _ xs _ _ _ _ _ _ _ _ ihx ihy =>
    simp only [Phrase.places, List.map_append]
    have hx := ihx.trans ((List.tail_sublist xs).map Token.position)
    exact .append hx (List.sublist_append_of_sublist_left ihy)
  | links _ _ ihx ihy =>
    simp only [Phrase.places, List.map_append]
    exact .append ihx ihy
  | descendant _ _ hx ih =>
    obtain ⟨t, ys, k, rfl, -⟩ := hx.compound_head
    simp only [Phrase.places, List.map_append]
    exact List.sublist_append_of_sublist_right (.cons_cons _ ih)
  | @combinator _ _ _ _ xs _ _ _ _ _ _ _ ih =>
    simp only [Phrase.places, List.map_append, List.map_cons]
    have hx := ih.trans ((List.tail_sublist xs).map Token.position)
    refine List.sublist_append_of_sublist_right (.cons_cons _ ?_)
    exact List.sublist_append_of_sublist_right hx
  | compound _ _ ih => exact ih
  | @items _ _ _ _ _ ys _ _ _ _ hx _ ihx ihy =>
    obtain ⟨t, xs, k, rfl, -⟩ := hx.item_head
    simp only [Phrase.places, List.cons_append, List.tail_cons, List.map_append]
    exact .append ihx (ihy.trans ((List.tail_sublist ys).map Token.position))
  | «attribute» _ hx => exact hx.places
  | pseudo _ _ _ _ ih => exact .cons_cons _ ih
  | argument _ _ _ _ _ ih =>
    simp only [Phrase.places, List.map_append, List.map_cons]
    exact .cons _ (List.sublist_append_of_sublist_left ih)
  | selectorBody _ ih => exact ih
  | formulaOf _ _ _ _ _ ih =>
    simp only [Phrase.places, List.map_append, List.map_cons]
    exact List.sublist_append_of_sublist_right (.cons _ (.cons _ ih))

theorem reads_move_iff {c' : Context} {f g : Nat → Nat} {ns : List Mention}
    (hgf : ∀ n, g (f n) = n) (hk : Movable c c' f xs p)
    (hk' : Movable c' c g (xs.map (Token.move f)) p)
    (hσ : ∀ category name,
      c'.dialect.signature? category name = c.dialect.signature? category name) :
    Reads c' (xs.map (Token.move f)) p ns ↔
      ∃ ms, ns = ms.map (Mention.move f) ∧ Reads c xs p ms := by
  constructor
  · intro h
    have hback : (xs.map (Token.move f)).map (Token.move g) = xs := by
      simp [Token.move, Function.comp_def, hgf]
    refine ⟨ns.map (Mention.move g), ?_, ?_⟩
    · -- all mentions are at tokens, and so at new offsets
      have hplace : ∀ m ∈ ns, ∃ n, m.position = f n := by
        intro m hm
        have hmem := h.places.subset (List.mem_map_of_mem hm)
        obtain ⟨t, ht, hp⟩ := List.mem_map.1 (p.places_subset _ hmem)
        obtain ⟨u, -, rfl⟩ := List.mem_map.1 ht
        exact ⟨u.position, hp.symm⟩
      rw [List.map_map]
      refine (List.map_id ns).symm.trans (List.map_congr_left fun m hm => ?_)
      obtain ⟨n, hn⟩ := hplace m hm
      change m = ⟨m.feature, f (g m.position)⟩
      rw [hn, hgf, ← hn]
    · have hread := h.move_of_movable hk' fun category name => (hσ category name).symm
      rwa [hback] at hread
  · rintro ⟨ms, rfl, h⟩
    exact h.move_of_movable hk hσ

end

end Parse

namespace Dialect

open Parse

theorem message_warnings (d : Dialect) (ms : List Mention) :
    (d.warnings ms).map Warning.message =
      ((ms.map Mention.feature).filter d.flags).map Feature.message := by
  rw [warnings, List.map_map, List.filter_map, List.map_map]
  rfl

theorem position_warnings_sublist (d : Dialect) (ms : List Mention) :
    ((d.warnings ms).map Warning.position).Sublist (ms.map Mention.position) := by
  rw [warnings, List.map_map]
  exact List.filter_sublist.map _

theorem position_warnings_of_parse {d : Dialect} {text : String} {r : Reading}
    (h : d.parse text = .ok r) :
    ∃ ts, tokenize text = .ok ts ∧
      (r.warnings.map Warning.position).Sublist (ts.dropLast.map Token.position) := by
  obtain ⟨ts, ht, ms, hr, -, hw⟩ := parse_eq_ok.1 h
  refine ⟨ts, ht, ?_⟩
  rw [hw]
  exact (d.position_warnings_sublist ms).trans hr.places

theorem exists_reading_of_warnings {d : Dialect} {text : String} {ws : List Warning}
    (h : (d.parse text).toOption.map Reading.warnings = some ws) :
    ∃ r, d.parse text = .ok r ∧ r.warnings = ws := by
  cases hr : d.parse text with
  | error e =>
    rw [hr] at h
    contradiction
  | ok r =>
    rw [hr] at h
    exact ⟨r, rfl, Option.some.inj h⟩

/-- The messages of a reading are those about the constructs of its tree that the dialect flags, and
their offsets increase and stay inside of the text. -/
theorem warnings_of_parse {d : Dialect} {text : String} {r : Reading} (h : d.parse text = .ok r) :
    r.warnings.map Warning.message = (r.selector.features.filter d.flags).map Feature.message ∧
      (r.warnings.map Warning.position).Pairwise (· < ·) ∧
      ∀ w ∈ r.warnings, w.position < Text.byteSize text.toList := by
  obtain ⟨ts, ht, ms, hr, -, hw⟩ := parse_eq_ok.1 h
  have hs : (r.warnings.map Warning.position).Sublist (ts.dropLast.map Token.position) := by
    rw [hw]
    exact (d.position_warnings_sublist ms).trans hr.places
  refine ⟨?_, ?_, fun w hm => ?_⟩
  · rw [hw, message_warnings, hr.features]
    rfl
  · have hi := (tokenize_increasing ht).sublist (List.dropLast_sublist ts)
    exact (List.pairwise_map.2 hi).sublist hs
  · obtain ⟨t, hmem, hp⟩ := List.mem_map.1 (hs.subset (List.mem_map_of_mem hm))
    exact hp ▸ position_lt_of_tokenize ht hmem

/-- The descendant combinator is not recognised, nor is the operator in the argument behind it. The
text is read under a dialect that accepts both, and what it mentions passes under one that warns. -/
theorem warnings_in_not :
    let known : NameMap Signature := .insert .empty "not" (.required .selector)
    let d : Dialect := ⟨known, .empty, .warn, .warn, ⟨[.equals], [], .warn⟩, ⟨[.child], .warn⟩⟩
    let inner : Selector := ⟨[⟨[.attribute ⟨"b", some .includes, some "c", none⟩]⟩]⟩
    let whole : Selector := ⟨[⟨[.tagName "a", .combinator .descendant,
      .pseudo .pseudoClass "not" (some (.selector inner))]⟩]⟩
    ∃ ws, d.parse "a :not([b~=c])" = .ok ⟨whole, ws⟩ ∧
      ws.map Warning.message =
        ["Unknown combinator: \" \".", "Unknown attribute operator: \"~=\"."] ∧
      (ws.map Warning.position).Pairwise (· < ·) ∧ ∀ w ∈ ws, w.position < 14 := by
  intro known d inner whole
  let e : Dialect :=
    ⟨known, .empty, .accept, .accept, ⟨[.equals], [], .accept⟩, ⟨[.child], .accept⟩⟩
  have he : e.parse "a :not([b~=c])" = .ok ⟨whole, []⟩ := by cbv
  obtain ⟨ts, ht, ms, hr, -⟩ := parse_eq_ok.1 he
  have hd : Reads ⟨d, "a :not([b~=c])".toList⟩ ts.dropLast (.selector whole) ms := by
    have hk : Kept ⟨e, "a :not([b~=c])".toList⟩ ⟨d, "a :not([b~=c])".toList⟩ id ts.dropLast :=
      fun _ _ _ _ _ h => h
    simpa using hr.move hk fun category _ => by cases category <;> rfl
  have hp : d.Passes ms (d.warnings ms) := by
    refine ⟨fun m _ => ?_, rfl⟩
    rcases m.feature with ⟨_ | _, _⟩ | _ | _ | _ <;> simp [admits, policyOn, d]
  have h : d.parse "a :not([b~=c])" = .ok ⟨whole, d.warnings ms⟩ :=
    parse_eq_ok.2 ⟨ts, ht, ms, hd, hp⟩
  obtain ⟨hm, hi, hl⟩ := warnings_of_parse h
  exact ⟨_, h, hm, hi, hl⟩

end Dialect
end CssSelector
