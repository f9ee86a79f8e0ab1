/-!
Scanners: functions that take something off the front of a text. A scan keeps what it took as
written, and `spelling ++ rest` is always the text it was given. Here are the parts of tokens that
have a value other than their spelling, namely escapes, names and quoted strings, and numerals.
-/

set_option autoImplicit false

namespace CssSelector

structure Scan (α : Type) where
  value : α
  spelling : List Char
  rest : List Char
  deriving DecidableEq, Repr

namespace Scan

def push (c : Char) (spelling : List Char) (s : Scan (List Char)) : Scan (List Char) :=
  ⟨c :: s.value, spelling ++ s.spelling, s.rest⟩

def after {α : Type} (spelling : List Char) (s : Scan α) : Scan α :=
  { s with spelling := spelling ++ s.spelling }

def isSpace (c : Char) : Bool := c = ' ' || c = '\t' || c = '\n' || c = '\r' || c = '\x0c'

def isHexDigit (c : Char) : Bool := c.isDigit || ('a' ≤ c && c ≤ 'f') || ('A' ≤ c && c ≤ 'F')

def isNameStart (c : Char) : Bool := c.isAlpha || c = '_' || 0x80 ≤ c.toNat

def isNameChar (c : Char) : Bool := isNameStart c || c.isDigit || c = '-'

def hexDigit (c : Char) : Nat :=
  if c.isDigit then c.toNat - 48 else if c.toNat < 97 then c.toNat - 55 else c.toNat - 87

def hexValue (digits : List Char) : Nat := digits.foldl (fun n c => 16 * n + hexDigit c) 0

/-- The replacement character stands in for zero and for numbers of no character. -/
def codePoint (n : Nat) : Char := if n ≠ 0 ∧ n.isValidChar then Char.ofNat n else '\uFFFD'

/-- What follows a backslash: up to six hexadecimal digits and one space after them, or any other
character, which then stands for itself. -/
def escape (c : Char) (cs : List Char) : Scan Char :=
  if isHexDigit c then
    let digits := (cs.take 5).takeWhile isHexDigit
    match cs.drop digits.length with
    | d :: rest =>
      if isSpace d then ⟨codePoint (hexValue (c :: digits)), c :: digits ++ [d], rest⟩
      else ⟨codePoint (hexValue (c :: digits)), c :: digits, d :: rest⟩
    | [] => ⟨codePoint (hexValue (c :: digits)), c :: digits, []⟩
  else ⟨c, [c], cs⟩

theorem spelling_escape (c : Char) (cs : List Char) :
    (escape c cs).spelling ++ (escape c cs).rest = c :: cs := by
  have h : (cs.take 5).takeWhile isHexDigit ++ cs.drop ((cs.take 5).takeWhile isHexDigit).length = cs :=
    (List.prefix_iff_eq_append.1 ((List.takeWhile_prefix _).trans (List.take_prefix _ _)))
  unfold escape
  grind

theorem length_rest_escape (c : Char) (cs : List Char) :
    (escape c cs).rest.length ≤ cs.length := by
  have h := congrArg List.length (spelling_escape c cs)
  have : (escape c cs).spelling ≠ [] := by unfold escape; grind
  have := List.length_pos_iff.2 this
  simp at h
  omega

/-- A backslash escapes any character but a line feed. -/
def startsEscape : List Char → Bool
  | '\\' :: c :: _ => c ≠ '\n'
  | _ => false

def startsName : List Char → Bool
  | '-' :: c :: cs => isNameStart c || c = '-' || startsEscape (c :: cs)
  | c :: cs => isNameStart c || startsEscape (c :: cs)
  | [] => false

def startsDigits : List Char → Bool
  | '.' :: d :: _ => d.isDigit
  | c :: _ => c.isDigit
  | [] => false

def startsNumber : List Char → Bool
  | '+' :: cs => startsDigits cs
  | '-' :: cs => startsDigits cs
  | cs => startsDigits cs

def name : List Char → Scan (List Char)
  | '\\' :: c :: cs =>
    if c = '\n' then ⟨[], [], '\\' :: c :: cs⟩
    else
      let e := escape c cs
      (name e.rest).push e.value ('\\' :: e.spelling)
  | c :: cs => if isNameChar c then (name cs).push c [c] else ⟨[], [], c :: cs⟩
  | [] => ⟨[], [], []⟩
termination_by cs => cs.length
decreasing_by
  · have := length_rest_escape c cs
    simp only [List.length_cons]
    omega
  · exact Nat.lt_succ_self _

theorem spelling_name (cs : List Char) : (name cs).spelling ++ (name cs).rest = cs := by
  fun_induction name cs with
  | case2 c cs h e ih => simp [push, ih, e, spelling_escape]
  | case3 c cs h₁ h₂ ih => simp [push, ih]
  | _ => rfl

/-- The inside of a quoted string and its closing quote. A line feed or the end of the text before
that quote is an error; a backslash before a line feed joins the two lines. -/
def quoted (quote : Char) : List Char → Option (Scan (List Char))
  | [] => none
  | c :: cs =>
    if c = quote then some ⟨[], [c], cs⟩
    else if c = '\n' then none
    else if c = '\\' then
      match cs with
      | [] => none
      | d :: cs =>
        if d = '\n' then
          (quoted quote cs).map (after [c, d])
        else
          let e := escape d cs
          (quoted quote e.rest).map (push e.value (c :: e.spelling))
    else (quoted quote cs).map (push c [c])
termination_by cs => cs.length
decreasing_by
  · simp only [List.length_cons]
    omega
  · have := length_rest_escape d cs
    simp only [List.length_cons]
    omega
  · exact Nat.lt_succ_self _

theorem spelling_quoted {quote : Char} {cs : List Char} {s : Scan (List Char)}
    (h : quoted quote cs = some s) : s.spelling ++ s.rest = cs := by
  fun_induction quoted quote cs generalizing s with
  | case1 | case3 | case4 => contradiction
  | case2 => cases h; rfl
  | case5 _ _ _ ih =>
    obtain ⟨t, ht, rfl⟩ := Option.map_eq_some_iff.1 h
    simp [after, ih ht]
  | case6 d cs =>
    rename_i ih
    obtain ⟨t, ht, rfl⟩ := Option.map_eq_some_iff.1 h
    simp only [push, List.cons_append, List.append_assoc, ih ht]
    exact congrArg _ (spelling_escape d cs)
  | case7 _ _ _ _ _ ih =>
    obtain ⟨t, ht, rfl⟩ := Option.map_eq_some_iff.1 h
    simp [push, ih ht]

/-- Digits, and a point with digits after it. -/
def unsignedNumeral (cs : List Char) : List Char :=
  let whole := cs.takeWhile Char.isDigit
  match cs.dropWhile Char.isDigit with
  | '.' :: d :: ds => if d.isDigit then whole ++ '.' :: d :: ds.takeWhile Char.isDigit else whole
  | _ => whole

def numeral : List Char → List Char
  | '+' :: cs => '+' :: unsignedNumeral cs
  | '-' :: cs => '-' :: unsignedNumeral cs
  | cs => unsignedNumeral cs

end Scan
end CssSelector
