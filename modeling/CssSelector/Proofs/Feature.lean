import CssSelector.Feature

set_option autoImplicit false

namespace CssSelector

theorem AttributeOperator.symbol_injective : Function.Injective symbol := by
  intro a b h
  cases a <;> cases b <;> simp [symbol] at h ⊢

theorem Combinator.symbol_injective : Function.Injective symbol := by
  intro a b h
  cases a <;> cases b <;> simp [symbol] at h ⊢

namespace Feature

def opening : Feature → String
  | .pseudo .pseudoClass _ => "Unknown pseudo-class: \""
  | .pseudo .pseudoElement _ => "Unknown pseudo-element \""
  | .operator _ => "Unknown attribute operator: \""
  | .modifier _ => "Unknown attribute case sensitivity modifier: \""
  | .combinator _ => "Unknown combinator: \""

def quoted : Feature → String
  | .pseudo _ name => name
  | .operator op => op.symbol
  | .modifier text => text
  | .combinator k => k.symbol

theorem message_eq (f : Feature) : f.message = f.opening ++ f.quoted ++ "\"." := by
  rcases f with ⟨_ | _, _⟩ | _ | _ | _ <;> rfl

def openings : List String :=
  [opening (.pseudo .pseudoClass ""), opening (.pseudo .pseudoElement ""),
    opening (.operator .equals), opening (.modifier ""), opening (.combinator .child)]

theorem opening_mem (f : Feature) : f.opening ∈ openings := by
  rcases f with ⟨_ | _, _⟩ | _ | _ | _ <;> simp [openings, opening]

theorem opening_unique {f g : Feature} (h : f.opening.toList <+: g.opening.toList) :
    f.opening = g.opening := by
  have hall : ∀ x ∈ openings, ∀ y ∈ openings, x.toList <+: y.toList → x = y := by decide
  exact hall _ f.opening_mem _ g.opening_mem h

theorem eq_of_quoted {f g : Feature} (ho : f.opening = g.opening) (hq : f.quoted = g.quoted) :
    f = g := by
  cases f with
  | pseudo category name =>
    cases g with
    | pseudo category' name' =>
      have hc : category = category' := by
        cases category <;> cases category' <;> simp [opening] at ho ⊢
      rw [hc, show name = name' from hq]
    | _ => cases category <;> simp [opening] at ho
  | operator op =>
    cases g with
    | operator op' => rw [AttributeOperator.symbol_injective hq]
    | pseudo category _ => cases category <;> simp [opening] at ho
    | _ => simp [opening] at ho
  | modifier text =>
    cases g with
    | modifier text' => rw [show text = text' from hq]
    | pseudo category _ => cases category <;> simp [opening] at ho
    | _ => simp [opening] at ho
  | combinator k =>
    cases g with
    | combinator k' => rw [Combinator.symbol_injective hq]
    | pseudo category _ => cases category <;> simp [opening] at ho
    | _ => simp [opening] at ho

theorem message_injective : Function.Injective message := by
  intro f g h
  rw [message_eq, message_eq] at h
  have hl := congrArg String.toList h
  simp only [String.toList_append, List.append_assoc] at hl
  have ho : f.opening = g.opening := by
    rcases List.prefix_or_prefix_of_prefix ⟨_, rfl⟩ ⟨_, hl.symm⟩ with h | h
    · exact opening_unique h
    · exact (opening_unique h).symm
  rw [ho] at hl
  have hq : f.quoted = g.quoted := by
    have hq := List.append_cancel_right (List.append_cancel_left hl)
    exact String.toList_inj.1 hq
  exact eq_of_quoted ho hq

end Feature
end CssSelector
