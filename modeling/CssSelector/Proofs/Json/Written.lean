import CssSelector.Json.Writer
import CssSelector.Proofs.Json.Text

set_option autoImplicit false

namespace CssSelector.Json

inductive Plain : Json → Prop
  | string (s : String) : Plain (.string s)
  | array {vs : List Json} : (∀ v ∈ vs, Plain v) → Plain (.array vs)
  | object {ms : List (String × Json)} : (∀ m ∈ ms, Plain m.2) → Plain (.object ms)

theorem spellsChar_writeChar (c : Char) : SpellsChar c (writeChar c) := by
  unfold writeChar
  split_ifs with hself hn hr ht hlow
  · rcases hself with rfl | rfl <;> exact .short (by decide)
  · exact hn ▸ .short (by decide)
  · exact hr ▸ .short (by decide)
  · exact ht ▸ .short (by decide)
  · have hpair := Scan.hexDigits_pair (Nat.lt_trans hlow (by decide))
    exact .unit ⟨rfl, hpair.zero_cons.zero_cons⟩
  · exact .itself (Nat.le_of_not_lt hlow) (fun h => hself (.inl h)) fun h => hself (.inr h)

theorem spellsChars_flatMap (cs : List Char) : SpellsChars cs (cs.flatMap writeChar) := by
  induction cs with
  | nil => exact .nil
  | cons c cs ih => exact .cons (spellsChar_writeChar c) ih

theorem toList_putString (out s : String) :
    (putString out s).toList = out.toList ++ '"' :: (s.toList.flatMap writeChar ++ ['"']) := by
  simp [putString]

/-- Behind whatever has been written, the value is put as one of its texts. -/
def Written (j : Json) : Prop :=
  ∃ us, Spells (.value j) us ∧ ∀ out, (put out j).toList = out.toList ++ us

theorem blank_nil : Blank [] := nofun

theorem Spells.element_of_value {j : Json} {us : List Char} (h : Spells (.value j) us) :
    Spells (.element j) us := by
  simpa using Spells.element blank_nil h blank_nil

theorem Spells.member_of_value {m : String × Json} {us : List Char} (h : Spells (.value m.2) us) :
    Spells (.member m) ('"' :: (m.1.toList.flatMap writeChar ++ '"' :: ':' :: us)) := by
  exact .member blank_nil (spellsChars_flatMap m.1.toList) blank_nil h.element_of_value

theorem exists_elements {vs : List Json} (hne : vs ≠ []) (h : ∀ v ∈ vs, Written v) :
    ∃ us, Spells (.elements vs) us ∧ ∀ out, (putElements out vs).toList = out.toList ++ us := by
  induction vs with
  | nil => contradiction
  | cons v vs ih =>
    obtain ⟨us, hus, hput⟩ := h v List.mem_cons_self
    cases vs with
    | nil => exact ⟨us, .lastElement hus.element_of_value, hput⟩
    | cons w vs =>
      obtain ⟨ws, hws, hrest⟩ := ih (List.cons_ne_nil w vs) fun x hx => h x (List.mem_cons_of_mem v hx)
      refine ⟨_, .elements hus.element_of_value hws, fun out => ?_⟩
      have hcons : putElements out (v :: w :: vs) = putElements (put out v ++ ",") (w :: vs) := rfl
      rw [hcons, hrest, String.toList_append, hput]
      simp

theorem exists_members {ms : List (String × Json)} (hne : ms ≠ []) (h : ∀ m ∈ ms, Written m.2) :
    ∃ us, Spells (.members ms) us ∧ ∀ out, (putMembers out ms).toList = out.toList ++ us := by
  induction ms with
  | nil => contradiction
  | cons m ms ih =>
    obtain ⟨us, hus, hput⟩ := h m List.mem_cons_self
    have hmember (out : String) : (put (putString out m.1 ++ ":") m.2).toList =
        out.toList ++ '"' :: (m.1.toList.flatMap writeChar ++ '"' :: ':' :: us) := by
      rw [hput, String.toList_append, toList_putString]
      simp
    cases ms with
    | nil => exact ⟨_, .lastMember hus.member_of_value, hmember⟩
    | cons m' ms =>
      obtain ⟨ws, hws, hrest⟩ := ih (List.cons_ne_nil m' ms) fun x hx => h x (List.mem_cons_of_mem m hx)
      refine ⟨_, .members hus.member_of_value hws, fun out => ?_⟩
      have hcons : putMembers out (m :: m' :: ms) =
          putMembers (put (putString out m.1 ++ ":") m.2 ++ ",") (m' :: ms) := rfl
      rw [hcons, hrest, String.toList_append, hmember]
      simp

theorem written_of_plain {j : Json} (h : Plain j) : Written j := by
  induction h with
  | string s => exact ⟨_, .string (spellsChars_flatMap s.toList), fun out => toList_putString out s⟩
  | @array vs _ ih =>
    by_cases hvs : vs = []
    · subst hvs
      exact ⟨_, .emptyArray blank_nil, fun out => by simp [put, putElements]⟩
    · obtain ⟨us, hus, hput⟩ := exists_elements hvs ih
      refine ⟨_, .array hus, fun out => ?_⟩
      rw [put, String.toList_append, hput]
      simp
  | @object ms _ ih =>
    by_cases hms : ms = []
    · subst hms
      exact ⟨_, .emptyObject blank_nil, fun out => by simp [put, putMembers]⟩
    · obtain ⟨us, hus, hput⟩ := exists_members hms ih
      refine ⟨_, .object hus, fun out => ?_⟩
      rw [put, String.toList_append, hput]
      simp

theorem spells_write {j : Json} (h : Plain j) : Spells (.element j) (write j).toList := by
  obtain ⟨us, hus, hput⟩ := written_of_plain h
  rw [write, hput]
  exact hus.element_of_value

end CssSelector.Json
