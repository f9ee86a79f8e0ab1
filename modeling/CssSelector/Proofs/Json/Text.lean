import CssSelector.Json.Reader
import CssSelector.Proofs.Hexadecimal
import Mathlib

/-!
JSON texts as a grammar. A value has many texts: there may be white space between tokens, and each
character of a string has several spellings. All of them are read as that value
(`Json.ofText?_of_spells`). Numbers and the three words that are values have no part in it.
-/

set_option autoImplicit false

namespace CssSelector.Json

open Scan (HexDigits)

structure CodeUnit (ds : List Char) (n : Nat) : Prop where
  length : ds.length = 4
  digits : HexDigits ds n

def shortEscapes : List (Char × Char) :=
  [('"', '"'), ('\\', '\\'), ('/', '/'), ('b', '\x08'), ('f', '\x0c'), ('n', '\n'), ('r', '\r'),
    ('t', '\t')]

inductive SpellsChar : Char → List Char → Prop
  | itself {c : Char} : 0x20 ≤ c.toNat → c ≠ '"' → c ≠ '\\' → SpellsChar c [c]
  | short {c e : Char} : (e, c) ∈ shortEscapes → SpellsChar c ['\\', e]
  | unit {c : Char} {ds : List Char} : CodeUnit ds c.toNat → SpellsChar c ('\\' :: 'u' :: ds)
  | pair {c : Char} {hs ls : List Char} : 0x10000 ≤ c.toNat →
      CodeUnit hs (0xD800 + (c.toNat - 0x10000) / 0x400) →
      CodeUnit ls (0xDC00 + (c.toNat - 0x10000) % 0x400) →
      SpellsChar c ('\\' :: 'u' :: (hs ++ '\\' :: 'u' :: ls))

inductive SpellsChars : List Char → List Char → Prop
  | nil : SpellsChars [] []
  | cons {c : Char} {s cs us : List Char} : SpellsChar c s → SpellsChars cs us →
      SpellsChars (c :: cs) (s ++ us)

def Blank (bs : List Char) : Prop := ∀ b ∈ bs, isSpace b

/-- An element is a value with white space around it. -/
inductive Phrase where
  | value (j : Json)
  | element (j : Json)
  | elements (vs : List Json)
  | member (m : String × Json)
  | members (ms : List (String × Json))

inductive Spells : Phrase → List Char → Prop
  | string {s : String} {us : List Char} : SpellsChars s.toList us →
      Spells (.value (.string s)) ('"' :: (us ++ ['"']))
  | emptyArray {bs : List Char} : Blank bs → Spells (.value (.array [])) ('[' :: (bs ++ [']']))
  | array {vs : List Json} {us : List Char} : Spells (.elements vs) us →
      Spells (.value (.array vs)) ('[' :: (us ++ [']']))
  | emptyObject {bs : List Char} : Blank bs →
      Spells (.value (.object [])) ('\x7b' :: (bs ++ ['\x7d']))
  | object {ms : List (String × Json)} {us : List Char} : Spells (.members ms) us →
      Spells (.value (.object ms)) ('\x7b' :: (us ++ ['\x7d']))
  | element {j : Json} {bs us ds : List Char} : Blank bs → Spells (.value j) us → Blank ds →
      Spells (.element j) (bs ++ (us ++ ds))
  | lastElement {v : Json} {us : List Char} : Spells (.element v) us → Spells (.elements [v]) us
  | elements {v : Json} {vs : List Json} {us ws : List Char} : Spells (.element v) us →
      Spells (.elements vs) ws → Spells (.elements (v :: vs)) (us ++ ',' :: ws)
  | member {key : String} {v : Json} {bs ks ds us : List Char} : Blank bs →
      SpellsChars key.toList ks → Blank ds → Spells (.element v) us →
      Spells (.member (key, v)) (bs ++ '"' :: (ks ++ '"' :: (ds ++ ':' :: us)))
  | lastMember {m : String × Json} {us : List Char} : Spells (.member m) us →
      Spells (.members [m]) us
  | members {m : String × Json} {ms : List (String × Json)} {us ws : List Char} :
      Spells (.member m) us → Spells (.members ms) ws → Spells (.members (m :: ms)) (us ++ ',' :: ws)

/-! Characters and strings. -/

section
variable {c : Char} {s cs us ws : List Char} {n : Nat}

theorem CodeUnit.exists_unit? {ds : List Char} (h : CodeUnit ds n) :
    ∃ a b c d, ds = [a, b, c, d] ∧ unit? a b c d = some n := by
  match ds, h with
  | [a, b, c, d], h =>
    refine ⟨a, b, c, d, rfl, ?_⟩
    rw [unit?, if_pos (List.all_eq_true.2 h.digits.isHexDigit), h.digits.hexValue_eq]

theorem charOfUnit?_toNat (c : Char) : charOfUnit? c.toNat = some c := by
  have hvalid : c.toNat < 0xD800 ∨ 0xE000 ≤ c.toNat := c.valid.imp_right fun h => h.1
  rw [charOfUnit?, if_pos hvalid, Char.ofNat_toNat]

theorem charOfUnit?_high (h : 0xD800 ≤ n ∧ n < 0xE000) : charOfUnit? n = none :=
  if_neg (by omega)

theorem charOfPair?_toNat (h : 0x10000 ≤ c.toNat) :
    charOfPair? (0xD800 + (c.toNat - 0x10000) / 0x400) (0xDC00 + (c.toNat - 0x10000) % 0x400) =
      some c := by
  have hmax : c.toNat ≤ 0x10FFFF := c.toNat_le_max
  have hsum : 0x10000 + (0xD800 + (c.toNat - 0x10000) / 0x400 - 0xD800) * 0x400 +
      (0xDC00 + (c.toNat - 0x10000) % 0x400 - 0xDC00) = c.toNat := by omega
  rw [charOfPair?, if_pos (by omega), hsum, Char.ofNat_toNat]

theorem chars?_unit {a b x d : Char} (h : (unit? a b x d).bind charOfUnit? = some c) :
    chars? ('\\' :: 'u' :: a :: b :: x :: d :: us) = push? (some c) (chars? us) := by
  rw [chars?.eq_def]
  simp only [h]

theorem chars?_pair {a b x d e f g k : Char} {m : Nat} (hhigh : unit? a b x d = some m)
    (hlow : unit? e f g k = some n) (hnone : charOfUnit? m = none)
    (hpair : charOfPair? m n = some c) :
    chars? ('\\' :: 'u' :: a :: b :: x :: d :: '\\' :: 'u' :: e :: f :: g :: k :: us) =
      push? (some c) (chars? us) := by
  rw [chars?, hhigh, hlow, Option.bind_some, hnone, ← hpair]
  rfl

theorem escaped?_of_mem {e : Char} (h : (e, c) ∈ shortEscapes) :
    e ≠ 'u' ∧ escaped? e = some c := by
  have hall : ∀ p ∈ shortEscapes, p.1 ≠ 'u' ∧ escaped? p.1 = some p.2 := by decide
  exact hall (e, c) h

theorem chars?_of_spellsChar (h : SpellsChar c s) (us : List Char) :
    chars? (s ++ us) = push? (some c) (chars? us) := by
  cases h with
  | itself hlow hquote hback =>
    rw [List.cons_append, List.nil_append, chars?, if_neg (by simp [hback, Nat.not_lt.2 hlow])]
    · exact hquote
    · exact fun _ _ _ _ _ h _ => hback h
    · exact fun _ _ h _ => hback h
  | short hmem =>
    obtain ⟨hne, hescaped⟩ := escaped?_of_mem hmem
    rw [List.cons_append, List.cons_append, List.nil_append, chars?, hescaped]
    exact fun _ _ _ _ _ h _ => hne h
  | unit hds =>
    obtain ⟨a, b, x, d, rfl, hunit⟩ := hds.exists_unit?
    exact chars?_unit (by rw [hunit, Option.bind_some, charOfUnit?_toNat])
  | pair hlarge hhs hls =>
    obtain ⟨a, b, x, d, rfl, hhigh⟩ := hhs.exists_unit?
    obtain ⟨e, f, g, k, rfl, hlow⟩ := hls.exists_unit?
    have hmax : c.toNat ≤ 0x10FFFF := c.toNat_le_max
    exact chars?_pair hhigh hlow (charOfUnit?_high (by omega)) (charOfPair?_toNat hlarge)

theorem chars?_of_spellsChars (h : SpellsChars cs us) (ws : List Char) :
    chars? (us ++ '"' :: ws) = some (cs, ws) := by
  induction h with
  | nil => rfl
  | cons hs _ ih =>
    rw [List.append_assoc, chars?_of_spellsChar hs, ih]
    rfl

end

/-! White space in front is skipped by every reader. -/

section
variable {cs us ws bs : List Char} {fuel : Nat}

theorem Blank.dropWhile (h : Blank bs) (cs : List Char) :
    (bs ++ cs).dropWhile isSpace = cs.dropWhile isSpace := by
  rw [List.dropWhile_append_of_pos h]

theorem value?_dropWhile (fuel : Nat) (cs : List Char) :
    value? fuel (cs.dropWhile isSpace) = value? fuel cs := by
  cases fuel with
  | zero => rfl
  | succ => rw [value?, value?, List.dropWhile_idempotent]

theorem elements?_dropWhile (fuel : Nat) (cs : List Char) :
    elements? fuel (cs.dropWhile isSpace) = elements? fuel cs := by
  cases fuel with
  | zero => rfl
  | succ => rw [elements?, elements?, value?_dropWhile]

theorem memberList?_dropWhile (fuel : Nat) (cs : List Char) :
    memberList? fuel (cs.dropWhile isSpace) = memberList? fuel cs := by
  cases fuel with
  | zero => rfl
  | succ => rw [memberList?, memberList?, List.dropWhile_idempotent]

theorem value?_blank (h : Blank bs) (fuel : Nat) (cs : List Char) :
    value? fuel (bs ++ cs) = value? fuel cs := by
  rw [← value?_dropWhile, h.dropWhile, value?_dropWhile]

end

/-! Quotes and brackets. A text that is read as elements does not start with the bracket that closes
none. -/

section
variable {cs rest bs : List Char} {fuel : Nat}

theorem elements?_close (fuel : Nat) (cs : List Char) : elements? fuel (']' :: cs) = none := by
  match fuel with
  | 0 | 1 | fuel + 2 => rfl

theorem memberList?_close (fuel : Nat) (cs : List Char) :
    memberList? fuel ('\x7d' :: cs) = none := by
  cases fuel <;> rfl

theorem value?_string {s : String} {us : List Char} (h : SpellsChars s.toList us) (fuel : Nat)
    (rest : List Char) : value? (fuel + 1) ('"' :: (us ++ '"' :: rest)) = some (.string s, rest) := by
  have hquote : value? (fuel + 1) ('"' :: (us ++ '"' :: rest)) =
      (chars? (us ++ '"' :: rest)).map fun r => (.string (String.ofList r.1), r.2) := rfl
  rw [hquote, chars?_of_spellsChars h]
  simp only [Option.map_some, String.ofList_toList]

theorem value?_bracket (fuel : Nat) (cs : List Char) :
    value? (fuel + 1) ('[' :: cs) =
      match cs.dropWhile isSpace with
      | ']' :: rest => some (.array [], rest)
      | cs => (elements? fuel cs).map fun (vs, rest) => (.array vs, rest) := rfl

theorem value?_brace (fuel : Nat) (cs : List Char) :
    value? (fuel + 1) ('\x7b' :: cs) =
      match cs.dropWhile isSpace with
      | '\x7d' :: rest => some (.object [], rest)
      | cs => (memberList? fuel cs).map fun (ms, rest) => (.object ms, rest) := rfl

theorem value?_emptyArray (h : Blank bs) (fuel : Nat) (rest : List Char) :
    value? (fuel + 1) ('[' :: (bs ++ ']' :: rest)) = some (.array [], rest) := by
  rw [value?_bracket, h.dropWhile]
  rfl

theorem value?_emptyObject (h : Blank bs) (fuel : Nat) (rest : List Char) :
    value? (fuel + 1) ('\x7b' :: (bs ++ '\x7d' :: rest)) = some (.object [], rest) := by
  rw [value?_brace, h.dropWhile]
  rfl

theorem value?_array {vs : List Json} (h : elements? fuel cs = some (vs, rest)) :
    value? (fuel + 1) ('[' :: cs) = some (.array vs, rest) := by
  rw [← elements?_dropWhile] at h
  rw [value?_bracket]
  split
  case h_1 heq => rw [heq, elements?_close] at h; contradiction
  case h_2 => rw [h]; rfl

theorem value?_object {ms : List (String × Json)} (h : memberList? fuel cs = some (ms, rest)) :
    value? (fuel + 1) ('\x7b' :: cs) = some (.object ms, rest) := by
  rw [← memberList?_dropWhile] at h
  rw [value?_brace]
  split
  case h_1 heq => rw [heq, memberList?_close] at h; contradiction
  case h_2 => rw [h]; rfl

end

/-! What is read of each phrase, whatever comes behind it. -/

/-- A value ends where its text does, while an element may leave white space behind its value. A
member is read in front of what goes on with more members or ends them. -/
def Phrase.Read : Phrase → List Char → Prop
  | .value j, us => ∀ fuel ws, us.length ≤ fuel → value? fuel (us ++ ws) = some (j, ws)
  | .element j, us => ∀ fuel ws, us.length ≤ fuel →
      ∃ ds, Blank ds ∧ value? fuel (us ++ ws) = some (j, ds ++ ws)
  | .elements vs, us => ∀ fuel ws, us.length < fuel → elements? fuel (us ++ ']' :: ws) = some (vs, ws)
  | .member m, us => ∀ fuel, us.length ≤ fuel →
      (∀ ws, memberList? (fuel + 1) (us ++ ',' :: ws) = (do
        let (ms, rest) ← memberList? fuel ws
        return (m :: ms, rest))) ∧
      ∀ ws, memberList? (fuel + 1) (us ++ '\x7d' :: ws) = some ([m], ws)
  | .members ms, us => ∀ fuel ws, us.length < fuel →
      memberList? fuel (us ++ '\x7d' :: ws) = some (ms, ws)

section
variable {us ws : List Char} {v : Json} {vs : List Json} {m : String × Json}
  {ms : List (String × Json)}

theorem read_value {j : Json} {c : Char} (h : ∀ fuel ws, us.length ≤ fuel →
    value? (fuel + 1) (c :: (us ++ ws)) = some (j, ws)) : (Phrase.value j).Read (c :: us) := by
  intro fuel ws hfuel
  obtain ⟨fuel, rfl⟩ := Nat.exists_eq_succ_of_ne_zero (Nat.ne_zero_of_lt hfuel)
  exact h fuel ws (Nat.le_of_succ_le_succ hfuel)

theorem read_element {j : Json} {bs ds : List Char} (hbs : Blank bs) (hus : (Phrase.value j).Read us)
    (hds : Blank ds) : (Phrase.element j).Read (bs ++ (us ++ ds)) := by
  intro fuel ws hfuel
  have hfuel : us.length ≤ fuel := by simp at hfuel; omega
  refine ⟨ds, hds, ?_⟩
  rw [List.append_assoc, value?_blank hbs, List.append_assoc, hus fuel _ hfuel]

theorem read_lastElement (hv : (Phrase.element v).Read us) : (Phrase.elements [v]).Read us := by
  intro fuel ws hfuel
  obtain ⟨fuel, rfl⟩ := Nat.exists_eq_succ_of_ne_zero (Nat.ne_zero_of_lt hfuel)
  obtain ⟨ds, hds, hread⟩ := hv fuel (']' :: ws) (Nat.le_of_lt_succ hfuel)
  rw [elements?, hread]
  dsimp only [Option.bind_eq_bind, Option.bind_some]
  rw [hds.dropWhile]
  rfl

theorem read_elements (hv : (Phrase.element v).Read us) (hvs : (Phrase.elements vs).Read ws) :
    (Phrase.elements (v :: vs)).Read (us ++ ',' :: ws) := by
  intro fuel xs hfuel
  rw [List.length_append, List.length_cons] at hfuel
  obtain ⟨fuel, rfl⟩ := Nat.exists_eq_succ_of_ne_zero (Nat.ne_zero_of_lt hfuel)
  obtain ⟨ds, hds, hread⟩ := hv fuel (',' :: (ws ++ ']' :: xs)) (by omega)
  rw [List.append_assoc, List.cons_append, elements?, hread]
  dsimp only [Option.bind_eq_bind, Option.bind_some]
  rw [hds.dropWhile]
  exact congrArg (Option.bind · _) (hvs fuel xs (by omega))

theorem read_member {key : String} {bs ks ds : List Char} (hbs : Blank bs)
    (hks : SpellsChars key.toList ks) (hds : Blank ds) (hv : (Phrase.element v).Read us) :
    (Phrase.member (key, v)).Read (bs ++ '"' :: (ks ++ '"' :: (ds ++ ':' :: us))) := by
  intro fuel hfuel
  have hfuel : us.length ≤ fuel := by simp at hfuel; omega
  have hopen (ws : List Char) :
      (bs ++ '"' :: (ks ++ '"' :: (ds ++ ':' :: us)) ++ ws).dropWhile isSpace =
        '"' :: (ks ++ '"' :: (ds ++ ':' :: (us ++ ws))) := by
    rw [List.append_assoc, hbs.dropWhile]
    simp [isSpace]
  have hcolon (ws : List Char) : (ds ++ ':' :: (us ++ ws)).dropWhile isSpace = ':' :: (us ++ ws) :=
    hds.dropWhile _
  constructor
  · intro ws
    obtain ⟨xs, hxs, hvalue⟩ := hv fuel (',' :: ws) hfuel
    have hnext : (xs ++ ',' :: ws).dropWhile isSpace = ',' :: ws := hxs.dropWhile _
    rw [memberList?, hopen]
    simp only [chars?_of_spellsChars hks, hcolon, hvalue, hnext, Option.bind_eq_bind,
      Option.bind_some, String.ofList_toList]
  · intro ws
    obtain ⟨xs, hxs, hvalue⟩ := hv fuel ('\x7d' :: ws) hfuel
    have hnext : (xs ++ '\x7d' :: ws).dropWhile isSpace = '\x7d' :: ws := hxs.dropWhile _
    rw [memberList?, hopen]
    simp only [chars?_of_spellsChars hks, hcolon, hvalue, hnext, Option.bind_eq_bind,
      Option.bind_some, Option.pure_def, String.ofList_toList]

theorem read_lastMember (hm : (Phrase.member m).Read us) : (Phrase.members [m]).Read us := by
  intro fuel ws hfuel
  obtain ⟨fuel, rfl⟩ := Nat.exists_eq_succ_of_ne_zero (Nat.ne_zero_of_lt hfuel)
  exact (hm fuel (Nat.le_of_lt_succ hfuel)).2 ws

theorem read_members (hm : (Phrase.member m).Read us) (hms : (Phrase.members ms).Read ws) :
    (Phrase.members (m :: ms)).Read (us ++ ',' :: ws) := by
  intro fuel xs hfuel
  rw [List.length_append, List.length_cons] at hfuel
  obtain ⟨fuel, rfl⟩ := Nat.exists_eq_succ_of_ne_zero (Nat.ne_zero_of_lt hfuel)
  rw [List.append_assoc, List.cons_append, (hm fuel (by omega)).1, hms fuel xs (by omega)]
  rfl

end

theorem read_of_spells {p : Phrase} {us : List Char} (h : Spells p us) : p.Read us := by
  induction h with
  | string hs => exact read_value fun fuel ws _ => by simpa using value?_string hs fuel ws
  | emptyArray hbs => exact read_value fun fuel ws _ => by simpa using value?_emptyArray hbs fuel ws
  | array _ ih =>
    refine read_value fun fuel ws hfuel => ?_
    rw [List.length_append] at hfuel
    simpa using value?_array (ih fuel ws hfuel)
  | emptyObject hbs =>
    exact read_value fun fuel ws _ => by simpa using value?_emptyObject hbs fuel ws
  | object _ ih =>
    refine read_value fun fuel ws hfuel => ?_
    rw [List.length_append] at hfuel
    simpa using value?_object (ih fuel ws hfuel)
  | element hbs _ hds ih => exact read_element hbs ih hds
  | lastElement _ ih => exact read_lastElement ih
  | elements _ _ ihv ihvs => exact read_elements ihv ihvs
  | member hbs hks hds _ ih => exact read_member hbs hks hds ih
  | lastMember _ ih => exact read_lastMember ih
  | members _ _ ihm ihms => exact read_members ihm ihms

theorem ofText?_of_spells {j : Json} {text : String} (h : Spells (.element j) text.toList) :
    ofText? text = some j := by
  have hfuel : text.toList.length ≤ 2 * text.length + 1 := by
    rw [String.length_toList]
    omega
  obtain ⟨ds, hds, hread⟩ := read_of_spells h (2 * text.length + 1) [] hfuel
  rw [List.append_nil, List.append_nil] at hread
  rw [ofText?, hread]
  exact if_pos (List.all_eq_true.2 hds)

end CssSelector.Json
