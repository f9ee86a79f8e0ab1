import CssSelector.Proofs.Feature
import CssSelector.Selector.Json
import Mathlib

/-!
Trees can be told from their JSON. Two trees whose JSON values are equal, whatever the order of the
members of their objects, are one tree (`Selector.same_toJson_iff`).
-/

set_option autoImplicit false

namespace CssSelector

namespace Json

/-- Equality of JSON values. A number is what it comes to, however it is written, and an object is told
by the values of its keys. -/
inductive Same : Json → Json → Prop
  | null : Same .null .null
  | bool (b : Bool) : Same (.bool b) (.bool b)
  | number {n n' e e' : Int} : (n : ℚ) * 10 ^ e = n' * 10 ^ e' → Same (.number n e) (.number n' e')
  | string (s : String) : Same (.string s) (.string s)
  | array {vs ws : List Json} : List.Forall₂ Same vs ws → Same (.array vs) (.array ws)
  | object {ms ns : List (String × Json)} :
      (∀ key, Option.Rel Same (ms.lookup key) (ns.lookup key)) → Same (.object ms) (.object ns)

theorem sizeOf_lt_of_lookup {ms : List (String × Json)} {key : String} {v : Json}
    (h : ms.lookup key = some v) : sizeOf v < sizeOf (Json.object ms) := by
  induction ms with
  | nil => contradiction
  | cons m ms ih =>
    obtain ⟨k, w⟩ := m
    rw [List.lookup_cons] at h
    split at h
    · cases h
      simp
      omega
    · have := ih h
      simp at this ⊢
      omega

theorem Same.refl (j : Json) : Same j j := by
  cases j with
  | null => exact .null
  | bool b => exact .bool b
  | number => exact .number rfl
  | string s => exact .string s
  | array vs => exact .array (List.forall₂_same.2 fun v hv => Same.refl v)
  | object ms =>
    refine .object fun key => ?_
    cases h : ms.lookup key with
    | none => exact .none
    | some v => exact .some (Same.refl v)
termination_by sizeOf j
decreasing_by
  · have := List.sizeOf_lt_of_mem hv
    simp
    omega
  · exact sizeOf_lt_of_lookup h

def get? (key : String) : Json → Option Json
  | .object ms => ms.lookup key
  | _ => none

section
variable {j k v w : Json}

theorem Same.get? (h : j.Same k) (key : String) : Option.Rel Same (j.get? key) (k.get? key) := by
  cases h with
  | object h => exact h key
  | _ => exact .none

theorem Same.of_get? (h : j.Same k) (key : String) (hj : j.get? key = some v)
    (hk : k.get? key = some w) : v.Same w := by
  have hrel := h.get? key
  rw [hj, hk] at hrel
  cases hrel with
  | some h => exact h

theorem Same.eq_of_get? {α : Type} {f : α → Json} (hf : ∀ a b, (f a).Same (f b) → a = b)
    (h : j.Same k) (key : String) {a b : Option α} (hj : j.get? key = a.map f)
    (hk : k.get? key = b.map f) : a = b := by
  have hrel := h.get? key
  rw [hj, hk] at hrel
  cases a <;> cases b <;> cases hrel
  · rfl
  · exact congrArg some (hf _ _ ‹_›)

theorem string_inj (s t : String) (h : (Json.string s).Same (.string t)) : s = t := by
  cases h
  rfl

theorem array_inj {vs ws : List Json} (h : (Json.array vs).Same (.array ws)) :
    List.Forall₂ Same vs ws := by
  cases h
  assumption

theorem int_inj (x y : Int) (h : (int x).Same (int y)) : x = y := by
  cases h with
  | number h => simpa using h

end
end Json

open Json

/-! Texts of bits. -/

namespace Binary64

theorem digitChar_inj {m n : Nat} (hm : m < 16) (hn : n < 16) (h : m.digitChar = n.digitChar) :
    m = n := by
  have hall : ∀ m < 16, ∀ n < 16, Nat.digitChar m = Nat.digitChar n → m = n := by decide
  exact hall m hm n hn h

theorem mod_pow_eq {m n k : Nat} (h : ∀ i < k, m / 16 ^ i % 16 = n / 16 ^ i % 16) :
    m % 16 ^ k = n % 16 ^ k := by
  induction k with
  | zero => simp [Nat.mod_one]
  | succ k ih =>
    rw [Nat.mod_pow_succ, Nat.mod_pow_succ, h k (Nat.lt_succ_self k),
      ih fun i hi => h i (Nat.lt_succ_of_lt hi)]

theorem hex_injective : Function.Injective hex := by
  intro x y h
  have hdigits := List.map_inj_left.1 (List.cons.inj (List.cons.inj (String.ofList_inj.1 h)).2).2
  have hbits : x.bits.toNat % 16 ^ 16 = y.bits.toNat % 16 ^ 16 := by
    refine mod_pow_eq fun i hi => ?_
    have hi' := hdigits (15 - i) (List.mem_range.2 (by omega))
    have hshift : 4 * (15 - (15 - i)) = 4 * i := by omega
    rw [hshift, Nat.shiftRight_eq_div_pow, Nat.shiftRight_eq_div_pow, Nat.pow_mul] at hi'
    exact digitChar_inj (Nat.mod_lt _ (by decide)) (Nat.mod_lt _ (by decide)) hi'
  have hlt (x : Binary64) : x.bits.toNat < 16 ^ 16 := x.bits.toNat_lt
  rw [Nat.mod_eq_of_lt (hlt x), Nat.mod_eq_of_lt (hlt y)] at hbits
  exact congrArg Binary64.mk (UInt64.toNat_inj.1 hbits)

end Binary64

theorem Combinator.name_injective : Function.Injective name := by
  intro a b h
  cases a <;> cases b <;> simp [name] at h ⊢

/-! What items and arguments are tagged with, and their members. -/

namespace Item

def typeName : Item → String
  | .tagName _ => "TagName"
  | .universal => "Universal"
  | .className _ => "ClassName"
  | .idName _ => "IdName"
  | .attribute _ => "Attribute"
  | .pseudo c _ _ => c.typeName
  | .combinator _ => "Combinator"

def name? : Item → Option String
  | .tagName n | .className n | .idName n | .pseudo _ n _ => some n
  | .attribute a => some a.name
  | .universal | .combinator _ => none

theorem get?_type (i : Item) : i.toJson.get? "type" = some (.string i.typeName) := by
  cases i with
  | pseudo _ _ a => cases a <;> rfl
  | _ => rfl

theorem get?_name (i : Item) : i.toJson.get? "name" = i.name?.map .string := by
  cases i with
  | pseudo _ _ a => cases a <;> rfl
  | _ => rfl

theorem get?_argument (c : Category) (n : String) (a : Option Argument) :
    (Item.pseudo c n a).toJson.get? "argument" = a.map Argument.toJson := by
  cases a <;> rfl

variable (a : Attribute)

theorem get?_operator : (Item.attribute a).toJson.get? "operator" =
    a.operator.map fun op => .string op.symbol := by
  obtain ⟨n, _ | _, _ | _, _ | _⟩ := a <;> rfl

theorem get?_value : (Item.attribute a).toJson.get? "value" = a.value.map .string := by
  obtain ⟨n, _ | _, _ | _, _ | _⟩ := a <;> rfl

theorem get?_modifier : (Item.attribute a).toJson.get? "caseSensitivity" =
    a.modifier.map .string := by
  obtain ⟨n, _ | _, _ | _, _ | _⟩ := a <;> rfl

end Item

theorem Attribute.eq_of_same {a b : Attribute}
    (h : (Item.attribute a).toJson.Same (Item.attribute b).toJson) : a = b := by
  have hname := h.eq_of_get? string_inj "name" (Item.get?_name _) (Item.get?_name _)
  have hoperator := h.eq_of_get? (fun _ _ h => AttributeOperator.symbol_injective (string_inj _ _ h))
    "operator" (Item.get?_operator a) (Item.get?_operator b)
  have hvalue := h.eq_of_get? string_inj "value" (Item.get?_value a) (Item.get?_value b)
  have hmodifier := h.eq_of_get? string_inj "caseSensitivity" (Item.get?_modifier a)
    (Item.get?_modifier b)
  obtain ⟨n, op, v, m⟩ := a
  obtain ⟨n', op', v', m'⟩ := b
  obtain rfl := Option.some.inj hname
  obtain rfl := hoperator
  obtain rfl := hvalue
  obtain rfl := hmodifier
  rfl

/-- Where the values are equal, nothing but what arguments hold could still differ. -/
theorem Item.same_cases {i j : Item} (h : i.toJson.Same j.toJson) :
    i = j ∨ ∃ c n a b, i = .pseudo c n (some a) ∧ j = .pseudo c n (some b) ∧
      a.toJson.Same b.toJson := by
  have htype := string_inj _ _ (h.of_get? "type" i.get?_type j.get?_type)
  have hname : i.name? = j.name? := h.eq_of_get? string_inj "name" i.get?_name j.get?_name
  have hpseudo {c : Category} {n n' : String} {a b : Option Argument}
      (h : (pseudo c n a).toJson.Same (pseudo c n' b).toJson) (hn : n = n') :
      pseudo c n a = pseudo c n' b ∨ ∃ c' m x y, pseudo c n a = .pseudo c' m (some x) ∧
        pseudo c n' b = .pseudo c' m (some y) ∧ x.toJson.Same y.toJson := by
    subst hn
    have harg := h.get? "argument"
    rw [get?_argument, get?_argument] at harg
    cases a <;> cases b <;> cases harg
    · exact .inl rfl
    · exact .inr ⟨c, n, _, _, rfl, rfl, ‹_›⟩
  rcases i with n | _ | n | n | a | ⟨_ | _, n, a⟩ | k <;>
    rcases j with n' | _ | n' | n' | b | ⟨_ | _, n', b⟩ | k' <;>
    simp [typeName, Category.typeName] at htype
  · exact .inl (congrArg tagName (Option.some.inj hname))
  · exact .inl rfl
  · exact .inl (congrArg className (Option.some.inj hname))
  · exact .inl (congrArg idName (Option.some.inj hname))
  · exact .inl (congrArg «attribute» (Attribute.eq_of_same h))
  · exact hpseudo h (Option.some.inj hname)
  · exact hpseudo h (Option.some.inj hname)
  · have hkind : (Json.string k.name).Same (.string k'.name) := h.of_get? "kind" rfl rfl
    exact .inl (congrArg combinator (Combinator.name_injective (string_inj _ _ hkind)))

namespace Argument

def typeName : Argument → String
  | .selector _ => "Selector"
  | .string _ => "String"
  | .number _ => "Number"
  | .identifier _ => "Identifier"
  | .formula _ => "Formula"
  | .formulaOfSelector _ _ => "FormulaOfSelector"

theorem get?_type (x : Argument) : x.toJson.get? "type" = some (.string x.typeName) := by
  cases x with
  | formulaOfSelector _ s => cases s <;> rfl
  | _ => rfl

def ofClause (f : Formula) (s : Option Selector) : Json :=
  .object (f.toMembers ++ s.toList.map fun s => ("selector", s.toJson))

theorem get?_clause (f : Formula) (s : Option Selector) :
    (formulaOfSelector f s).toJson.get? "value" = some (ofClause f s) := by
  cases s <;> rfl

theorem same_clause {f f' : Formula} {s s' : Option Selector}
    (h : (ofClause f s).Same (ofClause f' s')) :
    f = f' ∧ Option.Rel Same (s.map Selector.toJson) (s'.map Selector.toJson) := by
  have ha := int_inj _ _ (h.of_get? "a" (v := .int f.a) (w := .int f'.a) rfl rfl)
  have hb := int_inj _ _ (h.of_get? "b" (v := .int f.b) (w := .int f'.b) rfl rfl)
  have hs := h.get? "selector"
  have hget (f : Formula) (s : Option Selector) :
      (ofClause f s).get? "selector" = s.map Selector.toJson := by
    cases s <;> rfl
  rw [hget, hget] at hs
  obtain ⟨a, b⟩ := f
  obtain ⟨a', b'⟩ := f'
  exact ⟨congrArg₂ Formula.mk ha hb, hs⟩

end Argument

theorem Argument.same_cases {x y : Argument} (h : x.toJson.Same y.toJson) :
    x = y ∨ ∃ s t, s.toJson.Same t.toJson ∧ (x = .selector s ∧ y = .selector t ∨
      ∃ f, x = .formulaOfSelector f (some s) ∧ y = .formulaOfSelector f (some t)) := by
  have htype := string_inj _ _ (h.of_get? "type" x.get?_type y.get?_type)
  have hvalue {v w : Json} (hx : x.toJson.get? "value" = some v) (hy : y.toJson.get? "value" = some w) :
      v.Same w := h.of_get? "value" hx hy
  cases x <;> cases y <;> simp [typeName] at htype
  case selector.selector s t => exact .inr ⟨s, t, hvalue rfl rfl, .inl ⟨rfl, rfl⟩⟩
  case string.string => exact .inl (congrArg string (string_inj _ _ (hvalue rfl rfl)))
  case number.number =>
    exact .inl (congrArg number (Binary64.hex_injective (string_inj _ _ (hvalue rfl rfl))))
  case identifier.identifier => exact .inl (congrArg identifier (string_inj _ _ (hvalue rfl rfl)))
  case formula.formula f f' =>
    have hclause : (ofClause f none).Same (ofClause f' none) := hvalue rfl rfl
    exact .inl (congrArg formula (same_clause hclause).1)
  case formulaOfSelector.formulaOfSelector f s f' t =>
    obtain ⟨rfl, hs⟩ := same_clause (hvalue (get?_clause f s) (get?_clause f' t))
    cases s <;> cases t <;> cases hs
    · exact .inl rfl
    · exact .inr ⟨_, _, ‹_›, .inr ⟨f, rfl, rfl⟩⟩

mutual

theorem Selector.eq_of_same : ∀ s t : Selector, s.toJson.Same t.toJson → s = t
  | ⟨rs⟩, ⟨rs'⟩, h => congrArg Selector.mk <| rules_eq_of_same rs rs' <|
    array_inj (h.of_get? "rules" rfl rfl)

theorem rules_eq_of_same : ∀ rs rs' : List Rule,
    List.Forall₂ Same (rulesToJson rs) (rulesToJson rs') → rs = rs'
  | [], [], _ => rfl
  | r :: rs, r' :: rs', .cons h hs =>
    congrArg₂ List.cons (Rule.eq_of_same r r' h) (rules_eq_of_same rs rs' hs)

theorem Rule.eq_of_same : ∀ r r' : Rule, r.toJson.Same r'.toJson → r = r'
  | ⟨is⟩, ⟨is'⟩, h => congrArg Rule.mk <| items_eq_of_same is is' <|
    array_inj (h.of_get? "items" rfl rfl)

theorem items_eq_of_same : ∀ is is' : List Item,
    List.Forall₂ Same (itemsToJson is) (itemsToJson is') → is = is'
  | [], [], _ => rfl
  | i :: is, i' :: is', .cons h hs =>
    congrArg₂ List.cons (Item.eq_of_same i i' h) (items_eq_of_same is is' hs)

theorem Item.eq_of_same (i j : Item) (h : i.toJson.Same j.toJson) : i = j := by
  obtain rfl | ⟨c, n, a, b, rfl, rfl, hab⟩ := Item.same_cases h
  · rfl
  · rw [Argument.eq_of_same a b hab]

theorem Argument.eq_of_same (x y : Argument) (h : x.toJson.Same y.toJson) : x = y := by
  obtain rfl | ⟨s, t, hst, ⟨rfl, rfl⟩ | ⟨f, rfl, rfl⟩⟩ := Argument.same_cases h
  · rfl
  · rw [Selector.eq_of_same s t hst]
  · rw [Selector.eq_of_same s t hst]

end

/-- Trees have equal JSON values only if they are one tree. -/
theorem Selector.same_toJson_iff {s t : Selector} : s.toJson.Same t.toJson ↔ s = t :=
  ⟨Selector.eq_of_same s t, fun h => h ▸ Same.refl s.toJson⟩

end CssSelector
