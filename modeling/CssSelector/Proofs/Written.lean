import CssSelector.Selector.Basic

set_option autoImplicit false

namespace CssSelector

def escaped (c : Char) : List Char := '\\' :: (Nat.toDigits 16 c.toNat ++ [' '])

def escapedName (s : String) : List Char := s.toList.flatMap escaped

def quotedText (s : String) : List Char := '"' :: (s.toList.flatMap escaped ++ ['"'])

def writtenInt : Int → List Char
  | .ofNat n => Nat.toDigits 10 n
  | .negSucc n => '-' :: Nat.toDigits 10 (n + 1)

def signedInt : Int → List Char
  | .ofNat n => '+' :: Nat.toDigits 10 n
  | .negSucc n => '-' :: Nat.toDigits 10 (n + 1)

def Formula.written (f : Formula) : List Char := writtenInt f.a ++ 'n' :: signedInt f.b

def Attribute.test (a : Attribute) : List Char :=
  match a.operator, a.value with
  | some op, some v =>
    op.symbol.toList ++ (quotedText v ++ (a.modifier.map escapedName).getD [])
  | _, _ => []

def Attribute.written (a : Attribute) : List Char :=
  '[' :: (escapedName a.name ++ (a.test ++ [']']))

mutual

def Selector.written : Selector → List Char
  | ⟨[]⟩ => []
  | ⟨r :: rs⟩ => r.written ++ writtenRules rs

def writtenRules : List Rule → List Char
  | [] => []
  | r :: rs => ',' :: (r.written ++ writtenRules rs)

def Rule.written : Rule → List Char
  | ⟨is⟩ => writtenItems is

def writtenItems : List Item → List Char
  | [] => []
  | i :: is => i.written ++ writtenItems is

def Item.written : Item → List Char
  | .tagName n => escapedName n
  | .universal => ['*']
  | .className n => '.' :: escapedName n
  | .idName n => '#' :: escapedName n
  | .attribute a => a.written
  | .pseudo c n none => c.colons.toList ++ escapedName n
  | .pseudo c n (some a) => c.colons.toList ++ (escapedName n ++ '(' :: (a.written ++ [')']))
  | .combinator k => k.symbol.toList

/-- A number is left out: there are some that no numeral has as its value. -/
def Argument.written : Argument → List Char
  | .selector s => s.written
  | .string t => quotedText t
  | .number _ => []
  | .identifier n => escapedName n
  | .formula f => f.written
  | .formulaOfSelector f none => f.written
  | .formulaOfSelector f (some s) => f.written ++ (" of ".toList ++ s.written)

end

example : String.ofList (Selector.written ⟨[⟨[.tagName "a", .combinator .child,
    .pseudo .pseudoClass "é" (some (.formulaOfSelector ⟨-2, 1⟩ (some ⟨[⟨[.attribute
      ⟨"b", some .equals, some "", some "i"⟩]⟩]⟩)))]⟩]⟩) =
    "\\61 >:\\e9 (-2n+1 of [\\62 =\"\"\\69 ])" := by rfl

/-- A text without U+0000, which no escape stands for. -/
def Escapable (s : String) : Prop := '\x00' ∉ s.toList

/-- Both integers have 32 bits, and so has the constant without its sign. -/
def Formula.Writable (f : Formula) : Prop :=
  (-0x80000000 ≤ f.a ∧ f.a < 0x80000000) ∧ -0x80000000 < f.b ∧ f.b < 0x80000000

theorem writtenItems_append (is js : List Item) :
    writtenItems (is ++ js) = writtenItems is ++ writtenItems js := by
  induction is with
  | nil => rfl
  | cons i is ih => simp [writtenItems, ih]

end CssSelector
