import CssSelector.Proofs.Formula.Blank
import CssSelector.Proofs.Formula.Range
import Mathlib

/-!
The microsyntax of formulas as a relation, with integers of any size. What is read is denoted by the
text. The other way round, a formula of two 32-bit integers is read off each text that denotes it,
but for the least constant behind the letter: its digits alone are no 32-bit integer.
-/

set_option autoImplicit false

namespace CssSelector

open Text

namespace Formula

/-- One or more digits, and the number that they stand for. -/
structure Digits (ds : List Char) (n : Nat) : Prop where
  nonempty : ds ≠ []
  digits : ∀ d ∈ ds, d.isDigit
  value : Nat.ofDigitChars 10 ds 0 = n

inductive Sign : Char → Int → Prop
  | plus : Sign '+' 1
  | minus : Sign '-' (-1)

inductive Integer : List Char → Int → Prop
  | unsigned {ds : List Char} {n : Nat} : Digits ds n → Integer ds n
  | signed {c : Char} {s : Int} {ds : List Char} {n : Nat} : Sign c s → Digits ds n →
      Integer (c :: ds) (s * n)

inductive Coefficient : List Char → Int → Prop
  | one : Coefficient [] 1
  | sign {c : Char} {s : Int} : Sign c s → Coefficient [c] s
  | integer {cs : List Char} {z : Int} : Integer cs z → Coefficient cs z

inductive Constant : List Char → Int → Prop
  | zero : Constant [] 0
  | signed {c : Char} {s : Int} {bs ds es : List Char} {n : Nat} : (∀ b ∈ bs, isBlank b) →
      Sign c s → (∀ d ∈ ds, isBlank d) → Digits es n → Constant (bs ++ c :: (ds ++ es)) (s * n)

/-- The microsyntax in small letters, without the blanks around it. -/
inductive Denotes : List Char → Formula → Prop
  | odd : Denotes ['o', 'd', 'd'] ⟨2, 1⟩
  | even : Denotes ['e', 'v', 'e', 'n'] ⟨2, 0⟩
  | integer {cs : List Char} {b : Int} : Integer cs b → Denotes cs ⟨0, b⟩
  | linear {cs ds : List Char} {a b : Int} : Coefficient cs a → Constant ds b →
      Denotes (cs ++ 'n' :: ds) ⟨a, b⟩

/-- The text has letters in either case, and may have blanks around them. -/
def DenotedBy (f : Formula) (text : String) : Prop :=
  ∃ bs cs ds, text.toList = bs ++ (cs ++ ds) ∧ (∀ b ∈ bs, isBlank b) ∧ (∀ d ∈ ds, isBlank d) ∧
    Denotes (cs.map Char.toLower) f

/-- The letter of the coefficient, which the keyword `even` has too. -/
def HasLetter (text : String) : Prop := 'n' ∈ text.toList.map Char.toLower

instance (text : String) : Decidable (HasLetter text) := by
  unfold HasLetter
  infer_instance

section
variable {cs ds : List Char} {f : Formula} {z : Int} {n : Nat} {c : Char} {s : Int}

theorem natural?_eq_some_iff : natural? ds = some n ↔ Digits ds n := by
  have hvalue : Nat.ofDigitChars 10 ds 0 = ds.foldl (fun n d => 10 * n + (d.toNat - 48)) 0 := rfl
  unfold natural?
  split
  case isTrue h =>
    rw [Option.some_inj, ← hvalue]
    exact ⟨fun hn => ⟨h.1, List.all_eq_true.1 h.2, hn⟩, Digits.value⟩
  case isFalse h =>
    refine ⟨fun hn => by contradiction, fun hd => ?_⟩
    exact absurd ⟨hd.nonempty, List.all_eq_true.2 hd.digits⟩ h

theorem int32?_eq_some_iff {w : Int} : int32? z = some w ↔ z = w ∧ IsInt32 z := by
  constructor
  · intro h
    obtain ⟨rfl, hw⟩ := isInt32_of_int32? h
    exact ⟨rfl, hw⟩
  · rintro ⟨rfl, hz⟩
    exact if_pos hz

theorem Sign.ne (h : Sign c s) : ¬ c.isDigit ∧ ¬ isBlank c ∧ c ≠ 'n' := by
  cases h <;> decide

/-! What is read is denoted. -/

theorem integer_of_integer? (h : integer? cs = some z) : Integer cs z := by
  unfold integer? at h
  split at h
  all_goals
    obtain ⟨n, hn, hz⟩ := Option.bind_eq_some_iff.1 h
    obtain ⟨rfl, -⟩ := int32?_eq_some_iff.1 hz
    have hd := natural?_eq_some_iff.1 hn
  · rw [← Int.one_mul n]
    exact .signed .plus hd
  · rw [Int.neg_eq_neg_one_mul]
    exact .signed .minus hd
  · exact .unsigned hd

theorem coefficient_of_coefficient? (h : coefficient? cs = some z) : Coefficient cs z := by
  unfold coefficient? at h
  split at h
  · cases h
    exact .one
  · cases h
    exact .sign .plus
  · cases h
    exact .sign .minus
  · exact .integer (integer_of_integer? h)

theorem blank_takeWhile (cs : List Char) : ∀ c ∈ cs.takeWhile isBlank, isBlank c :=
  List.all_eq_true.1 List.all_takeWhile

theorem Constant.of_trimStart (hs : Sign c s) (hc : trimStart cs = c :: ds)
    (hd : Digits (trimStart ds) n) : Constant cs (s * n) := by
  have hcs : cs.takeWhile isBlank ++ c :: (ds.takeWhile isBlank ++ trimStart ds) = cs := by
    rw [trimStart, List.takeWhile_append_dropWhile, ← hc, trimStart,
      List.takeWhile_append_dropWhile]
  rw [← hcs]
  exact .signed (blank_takeWhile cs) hs (blank_takeWhile ds) hd

/-- Only blanks may stand behind the letter where no constant does, and trimming has taken them. -/
theorem constant_of_constant? (hlast : ∀ c ∈ cs.getLast?, ¬ isBlank c)
    (h : constant? cs = some z) : Constant cs z := by
  unfold constant? at h
  split at h
  case h_1 hnil =>
    cases h
    have hblank : ∀ c ∈ cs, isBlank c := List.dropWhile_eq_nil_iff.1 hnil
    have hcs : cs = [] := by
      refine List.getLast?_eq_none_iff.1 (Option.eq_none_iff_forall_not_mem.2 fun c hc => ?_)
      exact hlast c hc (hblank c (List.mem_of_getLast? hc))
    rw [hcs]
    exact .zero
  case h_2 ds hds =>
    obtain ⟨n, hn, hz⟩ := Option.bind_eq_some_iff.1 h
    obtain ⟨rfl, -⟩ := int32?_eq_some_iff.1 hz
    rw [← Int.one_mul n]
    exact .of_trimStart .plus hds (natural?_eq_some_iff.1 hn)
  case h_3 ds hds =>
    obtain ⟨b, hb, rfl⟩ := Option.map_eq_some_iff.1 h
    obtain ⟨n, hn, hz⟩ := Option.bind_eq_some_iff.1 hb
    obtain ⟨rfl, -⟩ := int32?_eq_some_iff.1 hz
    rw [Int.neg_eq_neg_one_mul]
    exact .of_trimStart .minus hds (natural?_eq_some_iff.1 hn)
  case h_4 => contradiction

theorem ne_least_of_constant? (h : constant? cs = some z) : z ≠ -0x80000000 := by
  unfold constant? at h
  split at h
  · cases h
    decide
  · obtain ⟨n, -, hz⟩ := Option.bind_eq_some_iff.1 h
    obtain ⟨rfl, -⟩ := int32?_eq_some_iff.1 hz
    omega
  · obtain ⟨b, hb, rfl⟩ := Option.map_eq_some_iff.1 h
    obtain ⟨n, -, hz⟩ := Option.bind_eq_some_iff.1 hb
    obtain ⟨rfl, -, hn⟩ := int32?_eq_some_iff.1 hz
    omega
  · contradiction

theorem read?_cases (h : read? cs = some f) :
    let us := (trim cs).map Char.toLower
    us = ['o', 'd', 'd'] ∧ f = ⟨2, 1⟩ ∨ us = ['e', 'v', 'e', 'n'] ∧ f = ⟨2, 0⟩ ∨
      ('n' ∉ us ∧ ∃ b, integer? us = some b ∧ f = ⟨0, b⟩) ∨
      ∃ xs ys, us = xs ++ 'n' :: ys ∧ coefficient? xs = some f.a ∧ constant? ys = some f.b := by
  intro us
  unfold read? at h
  dsimp only at h
  have hsplit := List.takeWhile_append_dropWhile (p := (· ≠ 'n')) (l := us)
  split at h
  case isTrue hodd =>
    cases h
    exact .inl ⟨hodd, rfl⟩
  split at h
  case isFalse.isTrue heven =>
    cases h
    exact .inr (.inl ⟨heven, rfl⟩)
  split at h
  case h_1 hnil =>
    obtain ⟨b, hb, rfl⟩ := Option.map_eq_some_iff.1 h
    have hno : 'n' ∉ us := fun hn => by simpa using List.dropWhile_eq_nil_iff.1 hnil _ hn
    exact .inr (.inr (.inl ⟨hno, b, hb, rfl⟩))
  case h_2 c rest hd =>
    obtain ⟨a, ha, h⟩ := Option.bind_eq_some_iff.1 h
    obtain ⟨b, hb, h⟩ := Option.bind_eq_some_iff.1 h
    cases h
    have hhead := List.head?_dropWhile_not (p := (· ≠ 'n')) (l := us)
    rw [hd] at hhead hsplit
    obtain rfl : c = 'n' := by simpa using hhead
    exact .inr (.inr (.inr ⟨_, rest, hsplit.symm, ha, hb⟩))

theorem getLast?_trim (cs : List Char) :
    ∀ c ∈ ((trim cs).map Char.toLower).getLast?, ¬ isBlank c := by
  intro c hc
  obtain ⟨d, hd, rfl⟩ := Option.map_eq_some_iff.1 (List.getLast?_map ▸ hc)
  rw [isBlank_toLower]
  exact Text.getLast?_trim cs d hd

theorem denotes_of_read? (h : read? cs = some f) : Denotes ((trim cs).map Char.toLower) f := by
  have hlast := getLast?_trim cs
  obtain ⟨hodd, rfl⟩ | ⟨heven, rfl⟩ | ⟨-, b, hb, rfl⟩ | ⟨xs, ys, hxs, ha, hb⟩ := read?_cases h
  · rw [hodd]
    exact .odd
  · rw [heven]
    exact .even
  · exact .integer (integer_of_integer? hb)
  · rw [hxs] at hlast ⊢
    refine .linear (coefficient_of_coefficient? ha) (constant_of_constant? (fun c hc => ?_) hb)
    refine hlast c ?_
    rw [List.getLast?_append, List.getLast?_cons, Option.mem_def.1 hc]
    rfl

theorem ne_least_of_read? (h : read? cs = some f) (hn : 'n' ∈ (trim cs).map Char.toLower) :
    f.b ≠ -0x80000000 := by
  obtain ⟨-, rfl⟩ | ⟨-, rfl⟩ | ⟨hno, -⟩ | ⟨xs, ys, -, -, hb⟩ := read?_cases h
  · decide
  · decide
  · exact absurd hn hno
  · exact ne_least_of_constant? hb

/-! What is denoted is read. -/

theorem Integer.mem (h : Integer cs z) : ∀ c ∈ cs, c.isDigit ∨ ∃ s, Sign c s := by
  cases h with
  | unsigned hd => exact fun c hc => .inl (hd.digits c hc)
  | signed hs hd =>
    refine List.forall_mem_cons.2 ⟨.inr ⟨_, hs⟩, fun c hc => .inl (hd.digits c hc)⟩

theorem Coefficient.mem (h : Coefficient cs z) : ∀ c ∈ cs, c.isDigit ∨ ∃ s, Sign c s := by
  cases h with
  | one => simp
  | sign hs => exact List.forall_mem_singleton.2 (.inr ⟨_, hs⟩)
  | integer hi => exact hi.mem

theorem not_isBlank_of_isDigit (h : c.isDigit) : ¬ isBlank c :=
  not_isBlank_of_isLetter (isLetter_of_isDigit h)

theorem not_isBlank_of_mem (h : c.isDigit ∨ ∃ s, Sign c s) :
    ¬ isBlank c ∧ c ≠ 'n' ∧ c ≠ 'o' ∧ c ≠ 'e' := by
  obtain hd | ⟨s, hs⟩ := h
  · refine ⟨not_isBlank_of_isDigit hd, ?_, ?_, ?_⟩ <;> rintro rfl <;> contradiction
  · cases hs <;> decide

structure Tight (cs : List Char) : Prop where
  head : ∀ c ∈ cs.head?, ¬ isBlank c
  last : ∀ c ∈ cs.getLast?, ¬ isBlank c

theorem Tight.of_forall (h : ∀ c ∈ cs, ¬ isBlank c) : Tight cs :=
  ⟨fun c hc => h c (List.mem_of_head? hc), fun c hc => h c (List.mem_of_getLast? hc)⟩

theorem Tight.of_map (h : Tight (cs.map Char.toLower)) : Tight cs := by
  constructor
  · intro c hc
    rw [← isBlank_toLower]
    exact h.head _ (by rw [List.head?_map, Option.mem_def.1 hc]; rfl)
  · intro c hc
    rw [← isBlank_toLower]
    exact h.last _ (by rw [List.getLast?_map, Option.mem_def.1 hc]; rfl)

theorem Constant.last (h : Constant cs z) : ∀ c ∈ cs.getLast?, ¬ isBlank c := by
  cases h with
  | zero => simp
  | @signed d _ bs ds es _ _ _ _ he =>
    intro c hc
    have hlast : (bs ++ d :: (ds ++ es)).getLast? = es.getLast? := by
      rw [← List.cons_append, ← List.append_assoc, List.getLast?_append,
        List.getLast?_eq_some_getLast he.nonempty]
      rfl
    rw [hlast] at hc
    exact not_isBlank_of_isDigit (he.digits c (List.mem_of_getLast? hc))

theorem Denotes.tight (h : Denotes cs f) : Tight cs := by
  cases h with
  | odd => exact .of_forall (List.all_iff_forall_prop.1 (by decide))
  | even => exact .of_forall (List.all_iff_forall_prop.1 (by decide))
  | integer hi => exact .of_forall fun c hc => (not_isBlank_of_mem (hi.mem c hc)).1
  | @linear xs ys a b ha hb =>
    have hn : ¬ isBlank 'n' := by decide
    constructor
    · cases xs with
      | nil => rintro c ⟨⟩; exact hn
      | cons x xs =>
        rintro c ⟨⟩
        exact (not_isBlank_of_mem (ha.mem x List.mem_cons_self)).1
    · intro c hc
      rw [List.getLast?_append, List.getLast?_cons] at hc
      cases hy : ys.getLast? with
      | none =>
        obtain rfl : 'n' = c := by simpa [hy] using hc
        exact hn
      | some y =>
        obtain rfl : y = c := by simpa [hy] using hc
        exact hb.last y hy

theorem trimStart_append_blanks (h : ∀ b ∈ ds, isBlank b) (hc : ∀ c ∈ cs.head?, ¬ isBlank c) :
    trimStart (ds ++ cs) = cs := by
  rw [trimStart, List.dropWhile_append_of_pos h]
  exact trimStart_of_head hc

theorem Tight.trim_eq (h : Tight cs) : trim cs = cs := by
  have hrev : trimStart cs.reverse = cs.reverse :=
    trimStart_of_head (by rw [List.head?_reverse]; exact h.last)
  rw [trim, trimStart_of_head h.head, trimEnd, hrev, List.reverse_reverse]

theorem trim_append_tight {bs : List Char} (hb : ∀ b ∈ bs, isBlank b) (hc : Tight cs)
    (hd : ∀ d ∈ ds, isBlank d) : trim (bs ++ (cs ++ ds)) = trim cs := by
  rw [← List.append_assoc, trim_append_blanks _ hd, trim, trimStart_append_blanks hb hc.head, trim,
    trimStart_of_head hc.head]

theorem integer?_of_integer (h : Integer cs z) (hz : IsInt32 z) : integer? cs = some z := by
  cases h with
  | @unsigned _ n hd =>
    have hsign (c : Char) (hc : ¬ c.isDigit) (ds : List Char) : cs ≠ c :: ds := by
      rintro rfl
      exact hc (hd.digits c List.mem_cons_self)
    rw [integer?.eq_3 _ (hsign '+' (by decide)) (hsign '-' (by decide)),
      natural?_eq_some_iff.2 hd, Option.bind_some]
    exact int32?_eq_some_iff.2 ⟨rfl, hz⟩
  | @signed _ _ ds n hs hd =>
    have hn := natural?_eq_some_iff.2 hd
    cases hs with
    | plus =>
      rw [Int.one_mul] at hz ⊢
      exact Option.bind_eq_some_iff.2 ⟨n, hn, int32?_eq_some_iff.2 ⟨rfl, hz⟩⟩
    | minus =>
      rw [← Int.neg_eq_neg_one_mul] at hz ⊢
      exact Option.bind_eq_some_iff.2 ⟨n, hn, int32?_eq_some_iff.2 ⟨rfl, hz⟩⟩

theorem Integer.ne (h : Integer cs z) : cs ≠ [] ∧ ∀ c s, Sign c s → cs ≠ [c] := by
  cases h with
  | unsigned hd =>
    refine ⟨hd.nonempty, ?_⟩
    rintro c s hs rfl
    exact hs.ne.1 (hd.digits c List.mem_cons_self)
  | signed hs hd =>
    refine ⟨List.cons_ne_nil _ _, ?_⟩
    rintro c s - he
    exact hd.nonempty (List.cons.inj he).2

theorem coefficient?_of_coefficient (h : Coefficient cs z) (hz : IsInt32 z) :
    coefficient? cs = some z := by
  cases h with
  | one => rfl
  | sign hs => cases hs <;> rfl
  | integer hi =>
    obtain ⟨hnil, hne⟩ := hi.ne
    rw [coefficient?.eq_4 _ hnil (hne _ _ .plus) (hne _ _ .minus)]
    exact integer?_of_integer hi hz

theorem constant?_plus (h : trimStart cs = '+' :: ds) :
    constant? cs = (natural? (trimStart ds)).bind fun n => int32? n := by
  rw [constant?, h]
  rfl

theorem constant?_minus (h : trimStart cs = '-' :: ds) :
    constant? cs = ((natural? (trimStart ds)).bind fun n => int32? n).map fun b => -b := by
  rw [constant?, h]
  rfl

theorem constant?_of_constant (h : Constant cs z) (hz : IsInt32 z) (hne : z ≠ -0x80000000) :
    constant? cs = some z := by
  cases h with
  | zero => rfl
  | @signed c s bs ds es n hbs hs hds hes =>
    have hcs : trimStart (bs ++ c :: (ds ++ es)) = c :: (ds ++ es) :=
      trimStart_append_blanks hbs (by rintro _ ⟨⟩; exact hs.ne.2.1)
    have hdigits : trimStart (ds ++ es) = es :=
      trimStart_append_blanks hds fun d hd =>
        not_isBlank_of_isDigit (hes.digits d (List.mem_of_head? hd))
    have hn : natural? (trimStart (ds ++ es)) = some n := by
      rw [hdigits]
      exact natural?_eq_some_iff.2 hes
    have hpos : int32? n = some (n : Int) := by
      refine int32?_eq_some_iff.2 ⟨rfl, ?_⟩
      unfold IsInt32 at hz ⊢
      cases hs <;> omega
    cases hs with
    | plus => rw [constant?_plus hcs, hn, Option.bind_some, hpos, Int.one_mul]
    | minus =>
      rw [constant?_minus hcs, hn, Option.bind_some, hpos, Option.map_some, Int.neg_one_mul]

theorem read?_of_denotes (h : Denotes ((trim cs).map Char.toLower) f) (ha : IsInt32 f.a)
    (hb : IsInt32 f.b) (hne : 'n' ∈ (trim cs).map Char.toLower → f.b ≠ -0x80000000) :
    read? cs = some f := by
  unfold read?
  dsimp only
  generalize (trim cs).map Char.toLower = us at h hne ⊢
  cases h with
  | odd => rfl
  | even => rfl
  | integer hi =>
    have hmem c (hc : c ∈ us) := (not_isBlank_of_mem (hi.mem c hc)).2
    have hodd : us ≠ ['o', 'd', 'd'] := by
      rintro rfl
      exact (hmem 'o' (by decide)).2.1 rfl
    have heven : us ≠ ['e', 'v', 'e', 'n'] := by
      rintro rfl
      exact (hmem 'e' (by decide)).2.2 rfl
    have hdrop : us.dropWhile (· ≠ 'n') = [] :=
      List.dropWhile_eq_nil_iff.2 fun c hc => decide_eq_true (hmem c hc).1
    rw [if_neg hodd, if_neg heven, hdrop]
    exact congrArg (Option.map _) (integer?_of_integer hi hb)
  | @linear xs ys a b hx hy =>
    have hmem c (hc : c ∈ xs) := (not_isBlank_of_mem (hx.mem c hc)).2
    have hodd : xs ++ 'n' :: ys ≠ ['o', 'd', 'd'] := by
      intro he
      have hn : 'n' ∈ ['o', 'd', 'd'] := he ▸ by simp
      exact absurd hn (by decide)
    have heven : xs ++ 'n' :: ys ≠ ['e', 'v', 'e', 'n'] := by
      intro he
      cases xs with
      | nil => simp at he
      | cons x xs => exact (hmem x List.mem_cons_self).2.2 (List.cons.inj he).1
    have hn : ∀ c ∈ xs, decide (c ≠ 'n') := fun c hc => decide_eq_true (hmem c hc).1
    rw [if_neg hodd, if_neg heven, List.dropWhile_append_of_pos hn,
      List.takeWhile_append_of_pos hn]
    simp [coefficient?_of_coefficient hx ha, constant?_of_constant hy hb (hne (by simp))]

end

/-- The formula that is read off a text is the one that the text denotes, to the last digit. -/
theorem denotes_of_ofText? {text : String} {f : Formula} (h : ofText? text = some f) :
    Denotes ((trim text.toList).map Char.toLower) f :=
  denotes_of_read? h

theorem denotes_of_ofText?_zeros :
    ofText? "\u3000+02N -\t007 " = some ⟨2, -7⟩ ∧
      Denotes ['+', '0', '2', 'n', ' ', '-', '\t', '0', '0', '7'] ⟨2, -7⟩ := by
  have h : ofText? "\u3000+02N -\t007 " = some ⟨2, -7⟩ := by cbv
  exact ⟨h, denotes_of_ofText? h⟩

/-- A formula of 32-bit integers is read off all texts that denote it, unless its constant is the
least integer and is written behind the letter. -/
theorem ofText?_eq_some_iff_of_denotedBy {text : String} {f : Formula} (h : f.DenotedBy text)
    (ha : IsInt32 f.a) (hb : IsInt32 f.b) :
    ofText? text = some f ↔ ¬ (HasLetter text ∧ f.b = -0x80000000) := by
  obtain ⟨bs, cs, ds, htext, hbs, hds, hcs⟩ := h
  have htight : Tight cs := hcs.tight.of_map
  have htrim : trim text.toList = cs := by
    rw [htext, trim_append_tight hbs htight hds, htight.trim_eq]
  have hletter : HasLetter text ↔ 'n' ∈ (trim text.toList).map Char.toLower := by
    constructor
    · intro hn
      obtain ⟨x, hx, hlower⟩ := List.mem_map.1 hn
      have hblank : ¬ isBlank x := by
        rw [← isBlank_toLower, hlower]
        decide
      exact List.mem_map.2 ⟨x, mem_trim_of_not_isBlank hblank hx, hlower⟩
    · intro hn
      rw [htrim] at hn
      rw [HasLetter, htext, List.map_append, List.map_append]
      exact List.mem_append_right _ (List.mem_append_left _ hn)
  rw [hletter, not_and]
  rw [← htrim] at hcs
  exact ⟨fun hr hn => ne_least_of_read? hr hn, read?_of_denotes hcs ha hb⟩

theorem ofText?_of_denotedBy_ends :
    DenotedBy ⟨-0x80000000, 0x7fffffff⟩ "\t-02147483648N +\u30002147483647 " ∧
      IsInt32 (-0x80000000) ∧ IsInt32 0x7fffffff ∧
      ofText? "\t-02147483648N +\u30002147483647 " = some ⟨-0x80000000, 0x7fffffff⟩ := by
  have ha : Coefficient "-02147483648".toList (-1 * (0x80000000 : Nat)) :=
    .integer (.signed .minus (natural?_eq_some_iff.1 (by decide)))
  have hb : Constant ([' '] ++ '+' :: (['\u3000'] ++ "2147483647".toList))
      (1 * (0x7fffffff : Nat)) :=
    .signed (List.all_eq_true.1 (by decide)) .plus (List.all_eq_true.1 (by decide))
      (natural?_eq_some_iff.1 (by decide))
  have h : DenotedBy ⟨-0x80000000, 0x7fffffff⟩ "\t-02147483648N +\u30002147483647 " :=
    ⟨['\t'], "-02147483648N +\u30002147483647".toList, [' '], by decide,
      List.all_eq_true.1 (by decide), List.all_eq_true.1 (by decide), .linear ha hb⟩
  have hleast : IsInt32 (-0x80000000) := ⟨by decide, by decide⟩
  have hgreatest : IsInt32 0x7fffffff := ⟨by decide, by decide⟩
  exact ⟨h, hleast, hgreatest,
    (ofText?_eq_some_iff_of_denotedBy h hleast hgreatest).2 fun hn => absurd hn.2 (by decide)⟩

/-- The least integer is read alone and as a coefficient, and not behind the letter. -/
theorem ofText?_least_constant :
    DenotedBy ⟨1, -0x80000000⟩ "n-2147483648" ∧ ofText? "n-2147483648" = none ∧
      ofText? "-2147483648" = some ⟨0, -0x80000000⟩ ∧
      ¬ ∀ (text : String) (f : Formula), f.DenotedBy text → IsInt32 f.a → IsInt32 f.b →
        ofText? text = some f := by
  have hb : Constant ([] ++ '-' :: ([] ++ "2147483648".toList)) (-1 * (0x80000000 : Nat)) :=
    .signed nofun .minus nofun (natural?_eq_some_iff.1 (by decide))
  have h : DenotedBy ⟨1, -0x80000000⟩ "n-2147483648" :=
    ⟨[], "n-2147483648".toList, [], rfl, nofun, nofun, .linear .one hb⟩
  have hnone : ofText? "n-2147483648" = none := by cbv
  have halone : ofText? "-2147483648" = some ⟨0, -0x80000000⟩ := by cbv
  refine ⟨h, hnone, halone, fun hall => ?_⟩
  have hread := hall _ _ h ⟨by decide, by decide⟩ ⟨by decide, by decide⟩
  rw [hnone] at hread
  contradiction

end Formula
end CssSelector
