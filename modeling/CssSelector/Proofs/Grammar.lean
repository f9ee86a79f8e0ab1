import CssSelector.Proofs.Reads
import Mathlib.Computability.Language

/-!
The grammar of selectors as languages of tokens. Of a dialect it has the signatures of names and
nothing else.
-/

set_option autoImplicit false

namespace CssSelector

open Computability Parse Text

namespace Grammar

def kind (k : Token.Kind) : Language Token := {ts | ∃ t, ts = [t] ∧ t.kind = k}

def space : Language Token := (kind .whitespace)∗

def attributeSelector : Language Token :=
  kind .leftBracket * space * kind .ident * space * kind .rightBracket +
  kind .leftBracket * space * kind .ident * space * kind .attributeOperator * space *
    (kind .ident + kind .string) * space * (1 + kind .ident * space) * kind .rightBracket

def literal (k : Token.Kind) : Language Token := space * kind k * space

def formula : Language Token := {ts | ∃ f, ReadsFormula ts f}

def formulaOf : Language Token :=
  {ts | ∃ us w t, ts = us ++ [w, t] ∧ us ++ [w] ∈ formula ∧ w.kind = .whitespace ∧
    t.kind = .ident ∧ sameLetters t.text "of"}

def balanced : Language Token := {ts | Balanced ts}

section
variable (d : Dialect) (nested : Language Token)

/-- What stands between parentheses, where lists of rules are `nested`. -/
def body : ArgumentGrammar → Language Token
  | .noArgument => 0
  | .selector => nested
  | .formula => formula
  | .formulaOfSelector => formula + formulaOf * nested
  | .string => literal .string
  | .identifier => literal .ident
  | .number => literal .number

/-- What stands behind a name, as its signature says. -/
def argument (category : Category) (name : String) : Language Token :=
  match d.signature? category name with
  | none => 1 + kind .leftParen * balanced * kind .rightParen
  | some σ => {ts | ts = [] ∧ σ.bare ∨
    ∃ g, σ.argument = some g ∧ ts ∈ kind .leftParen * body nested g * kind .rightParen}

def pseudo (category : Category) : Language Token :=
  {ts | ∃ t us, ts = t :: us ∧ t.kind = .ident ∧ us ∈ argument d nested category t.text}

def simple : Language Token :=
  kind .dot * kind .ident + kind .hash + kind .colon * pseudo d nested .pseudoClass +
    attributeSelector

def compound : Language Token :=
  {ts | ts ∈ (1 + kind .ident + kind .asterisk) * (simple d nested)∗ *
    (1 + kind .doubleColon * pseudo d nested .pseudoElement) ∧ ts ≠ []}

def combinator : Language Token := kind .whitespace * space + space * kind .combinator * space

def rule : Language Token :=
  compound d nested * (combinator * compound d nested)∗ * space

def list : Language Token :=
  space * rule d nested * (kind .comma * space * rule d nested)∗

end

/-- Lists of rules, in which arguments hold such lists again. -/
inductive Derivable (d : Dialect) : List Token → Prop
  | mk (nested : Language Token) {ts : List Token} :
      (∀ us ∈ nested, Derivable d us) → ts ∈ list d nested → Derivable d ts

section
variable {k : Token.Kind} {t : Token} {s ts : List Token} {L : Language Token}

theorem cons_mem (ht : t.kind = k) (h : ts ∈ L) : t :: ts ∈ kind k * L :=
  Language.append_mem_mul (a := [t]) ⟨t, rfl, ht⟩ h

theorem mem_kind_mul : ts ∈ kind k * L ↔ ∃ t us, ts = t :: us ∧ t.kind = k ∧ us ∈ L := by
  constructor
  · rintro ⟨_, ⟨t, rfl, ht⟩, us, hu, rfl⟩
    exact ⟨t, us, rfl, ht, hu⟩
  · rintro ⟨t, us, rfl, ht, hu⟩
    exact cons_mem ht hu

theorem mem_kind_add_kind {k' : Token.Kind} :
    ts ∈ kind k + kind k' ↔ ∃ t, ts = [t] ∧ (t.kind = k ∨ t.kind = k') := by
  constructor
  · rintro (⟨t, rfl, ht⟩ | ⟨t, rfl, ht⟩)
    · exact ⟨t, rfl, .inl ht⟩
    · exact ⟨t, rfl, .inr ht⟩
  · rintro ⟨t, rfl, ht | ht⟩
    · exact .inl ⟨t, rfl, ht⟩
    · exact .inr ⟨t, rfl, ht⟩

theorem mem_space : s ∈ space ↔ Spaces s := by
  constructor
  · intro h
    obtain ⟨ss, rfl, hs⟩ := Language.mem_kstar.1 h
    intro t ht
    obtain ⟨us, hus, ht⟩ := List.mem_flatten.1 ht
    obtain ⟨u, rfl, hu⟩ := hs us hus
    rwa [List.mem_singleton.1 ht]
  · intro hs
    have hf : s = (s.map ([·])).flatten := by rw [← List.flatMap_def, List.flatMap_singleton']
    refine Language.mem_kstar.2 ⟨s.map ([·]), hf, ?_⟩
    intro us hus
    obtain ⟨t, ht, rfl⟩ := List.mem_map.1 hus
    exact ⟨t, rfl, hs t ht⟩

theorem append_mem (hs : Spaces s) (h : ts ∈ L) : s ++ ts ∈ space * L :=
  Language.append_mem_mul (mem_space.2 hs) h

theorem mem_space_mul : ts ∈ space * L ↔ ∃ s us, ts = s ++ us ∧ Spaces s ∧ us ∈ L := by
  constructor
  · rintro ⟨s, hs, us, hu, rfl⟩
    exact ⟨s, us, rfl, mem_space.1 hs, hu⟩
  · rintro ⟨s, us, rfl, hs, hu⟩
    exact append_mem hs hu

end

end Grammar
end CssSelector
