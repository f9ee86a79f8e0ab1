import CssSelector.Proofs.Lexing.Spelling
import CssSelector.Proofs.Written

set_option autoImplicit false

namespace CssSelector

open Text

def Combinator.tokenKind : Combinator → Token.Kind
  | .descendant => .whitespace
  | _ => .combinator

namespace Scan

theorem length_toDigits_toNat (c : Char) : (Nat.toDigits 16 c.toNat).length ≤ 6 := by
  rw [Nat.length_toDigits_le_iff (by decide) (by decide)]
  exact Nat.lt_of_le_of_lt c.toNat_le_max (by decide)

theorem spelling_escaped {c : Char} (h : c ≠ '\x00') : Spelling c (escaped c) :=
  .codePoint h (hexDigits_toDigits c.toNat) (length_toDigits_toNat c) rfl

theorem spellsName_escaped {cs : List Char} (h : '\x00' ∉ cs) :
    SpellsName cs (cs.flatMap escaped) := by
  induction cs with
  | nil => exact .nil
  | cons c cs ih =>
    obtain ⟨hc, hcs⟩ := not_or.1 (List.mem_cons.not.1 h)
    exact .cons (spelling_escaped (Ne.symm hc)) (ih hcs)

section
variable {s : String} {us : List Char}

theorem exists_escapedName (hne : s ≠ "") (h : Escapable s) :
    ∃ x xs, escapedName s = '\\' :: x :: xs ∧ x ≠ '\n' := by
  obtain ⟨c, cs, hcs⟩ := List.exists_cons_of_ne_nil (l := s.toList) (by simpa using hne)
  have hc : c ≠ '\x00' := by
    rintro rfl
    exact h (by simp [hcs])
  obtain ⟨he, -⟩ | ⟨x, xs, hx, hline, -⟩ := (spelling_escaped hc).eq_or_exists_escape
  · simp [escaped] at he
  · exact ⟨x, _, by rw [escapedName, hcs, List.flatMap_cons, hx]; rfl, hline⟩

def EndsName (us : List Char) : Prop := ∀ u ∈ us.head?, ¬isNameChar u ∧ u ≠ '\\'

theorem token_escapedName (hne : s ≠ "") (h : Escapable s) (hu : EndsName us) :
    token (escapedName s ++ us) = .ok ⟨(.ident, s), escapedName s, us⟩ := by
  obtain ⟨x, xs, hx, hline⟩ := exists_escapedName hne h
  have hname : name (escapedName s ++ us) = ⟨s.toList, escapedName s, us⟩ :=
    name_of_spellsName (spellsName_escaped h) (fun u hm => (hu u hm).1) fun hm => (hu _ hm).2 rfl
  have hnumber : ¬startsNumber (escapedName s ++ us) := by
    rw [hx]
    exact Bool.false_ne_true
  have hstart : startsName (escapedName s ++ us) := by
    rw [hx]
    simp [startsName, startsEscape, hline]
  rw [token_name hnumber hstart, hname, String.ofList_toList]

theorem token_escapedHash (hne : s ≠ "") (h : Escapable s) (hu : EndsName us) :
    token ('#' :: escapedName s ++ us) = .ok ⟨(.hash, s), '#' :: escapedName s, us⟩ := by
  obtain ⟨x, xs, hx, hline⟩ := exists_escapedName hne h
  have hname : name (escapedName s ++ us) = ⟨s.toList, escapedName s, us⟩ :=
    name_of_spellsName (spellsName_escaped h) (fun u hm => (hu u hm).1) fun hm => (hu _ hm).2 rfl
  have hstart : startsEscape (escapedName s ++ us) := by
    rw [hx]
    simp [startsEscape, hline]
  rw [List.cons_append, token_hash (by simp [hstart]), hname, String.ofList_toList]

theorem token_quotedText (h : Escapable s) :
    token (quotedText s ++ us) = .ok ⟨(.string, s), quotedText s, us⟩ := by
  have hquoted : quoted '"' (s.toList.flatMap escaped ++ '"' :: us) =
      some ⟨s.toList, s.toList.flatMap escaped ++ ['"'], us⟩ :=
    quoted_of_spellsString (.inl rfl) (spellsName_escaped h).spellsString
  have hsplit : quotedText s ++ us = '"' :: (s.toList.flatMap escaped ++ '"' :: us) := by
    simp [quotedText]
  rw [hsplit, token_string (.inl rfl) hquoted, String.ofList_toList]
  rfl

theorem token_dot (hne : s ≠ "") (h : Escapable s) :
    token (['.'] ++ (escapedName s ++ us)) = .ok ⟨(.dot, "."), ['.'], escapedName s ++ us⟩ := by
  obtain ⟨x, xs, hx, -⟩ := exists_escapedName hne h
  rw [hx]
  rfl

theorem token_colons (category : Category) (hne : s ≠ "") (h : Escapable s) :
    token (category.colons.toList ++ (escapedName s ++ us)) =
      .ok ⟨((ItemStart.pseudo category).kind, category.colons), category.colons.toList,
        escapedName s ++ us⟩ := by
  obtain ⟨x, xs, hx, -⟩ := exists_escapedName hne h
  rw [hx]
  cases category <;> rfl

end

section
variable {cs us : List Char}

def EndsItem (us : List Char) : Prop :=
  ∀ u ∈ us.head?, u ∈ ['.', '#', '[', ':', ' ', '>', '+', '~', ',', ')']

theorem EndsItem.endsName (h : EndsItem us) : EndsName us := by
  have hall : ∀ u ∈ ['.', '#', '[', ':', ' ', '>', '+', '~', ',', ')'],
      ¬isNameChar u ∧ u ≠ '\\' := List.all_iff_forall_prop.1 (by decide)
  exact fun u hu => hall u (h u hu)

theorem endsItem_combinator (k : Combinator) (us : List Char) :
    EndsItem (k.symbol.toList ++ us) := by
  cases k <;> rintro u ⟨⟩ <;> decide

theorem token_asterisk (h : EndsItem us) :
    token (['*'] ++ us) = .ok ⟨(.asterisk, "*"), ['*'], us⟩ := by
  cases us with
  | nil => rfl
  | cons u us =>
    have hmem := h u rfl
    simp only [List.mem_cons, List.not_mem_nil, or_false] at hmem
    rcases hmem with rfl | rfl | rfl | rfl | rfl | rfl | rfl | rfl | rfl | rfl <;> rfl

/-- What an item starts with. A dot has an escape behind it. -/
def OpensItem (cs : List Char) : Prop :=
  (∃ x xs, cs = x :: xs ∧ x ∈ ['\\', '*', '#', '[', ':']) ∨ ∃ xs, cs = '.' :: '\\' :: xs

theorem OpensItem.append (h : OpensItem cs) (us : List Char) : OpensItem (cs ++ us) := by
  rcases h with ⟨x, xs, rfl, hx⟩ | ⟨xs, rfl⟩
  · exact .inl ⟨x, xs ++ us, rfl, hx⟩
  · exact .inr ⟨xs ++ us, rfl⟩

theorem token_combinator (k : Combinator) (h : OpensItem us) :
    token (k.symbol.toList ++ us) = .ok ⟨(k.tokenKind, k.symbol), k.symbol.toList, us⟩ := by
  rcases h with ⟨x, xs, rfl, hx⟩ | ⟨xs, rfl⟩
  · simp only [List.mem_cons, List.not_mem_nil, or_false] at hx
    rcases hx with rfl | rfl | rfl | rfl | rfl <;> cases k <;> rfl
  · cases k <;> rfl

theorem endsName_operator (op : AttributeOperator) (us : List Char) :
    EndsName (op.symbol.toList ++ us) := by
  cases op <;> rintro u ⟨⟩ <;> decide

theorem endsName_bracket (us : List Char) : EndsName (']' :: us) := by
  rintro u ⟨⟩
  decide

theorem endsName_paren {u : Char} (h : u = '(' ∨ u = ')') (us : List Char) :
    EndsName (u :: us) := by
  rcases h with rfl | rfl <;> rintro u ⟨⟩ <;> decide

theorem token_operator (op : AttributeOperator) (us : List Char) :
    token (op.symbol.toList ++ '"' :: us) =
      .ok ⟨(.attributeOperator, op.symbol), op.symbol.toList, '"' :: us⟩ := by
  cases op <;> rfl

end

end Scan
end CssSelector
