import CssSelector.Binary64
import CssSelector.Feature
import CssSelector.Token.Lexer
import Mathlib.Data.List.TakeWhile

/-!
What the lexer promises of the tokens of a text: each one says something that its kind can say, they
stand in the text one behind another, and the end of the input comes last and nowhere else.
-/

set_option autoImplicit false

namespace CssSelector

open Text

/-- The text of a token fits its kind: no name is empty, numerals have a value, and symbols mean
something. -/
structure Token.Proper (t : Token) : Prop where
  name : t.kind = .ident ∨ t.kind = .hash → t.text ≠ ""
  numeral : t.kind = .number → (Binary64.ofNumeral? t.text.toList).isSome
  combinator : t.kind = .combinator → (Combinator.ofSymbol? t.text).isSome
  operator : t.kind = .attributeOperator → (AttributeOperator.ofSymbol? t.text).isSome

def Token.Before (source : List Char) (t u : Token) : Prop :=
  (slice? source t.position u.position).isSome

structure Lexed (source : List Char) (ts : List Token) : Prop where
  proper : ∀ t ∈ ts, t.Proper
  placed : ∀ t ∈ ts, t.Before source t
  ordered : ts.Pairwise (Token.Before source)

namespace Lexed
variable {source : List Char} {t u : Token} {ts us : List Token}

theorem sublist (h : Lexed source ts) (hu : us.Sublist ts) : Lexed source us where
  proper t ht := h.proper t (hu.subset ht)
  placed t ht := h.placed t (hu.subset ht)
  ordered := h.ordered.sublist hu

theorem left (h : Lexed source (ts ++ us)) : Lexed source ts :=
  h.sublist (List.sublist_append_left ts us)

theorem right (h : Lexed source (ts ++ us)) : Lexed source us :=
  h.sublist (List.sublist_append_right ts us)

theorem head (h : Lexed source (t :: ts)) : t.Proper := h.proper t List.mem_cons_self

theorem tail (h : Lexed source (t :: ts)) : Lexed source ts :=
  h.sublist (List.sublist_cons_self t ts)

theorem before (h : Lexed source (t :: (ts ++ [u]))) : t.Before source u :=
  (List.pairwise_cons.1 h.ordered).1 u (by simp)

end Lexed

namespace Scan

theorem name_ne_nil_of_head {cs : List Char} (h : cs.head?.any isNameChar || startsEscape cs) :
    (name cs).value ≠ [] := by
  unfold name
  split
  next c cs =>
    have hc : c ≠ '\n' := by
      simpa [startsEscape, show isNameChar '\\' = false from rfl] using h
    simp [hc, push]
  next c cs hc =>
    have hn : isNameChar c := by
      unfold startsEscape at h
      grind
    simp [hn, push]
  next => simp [startsEscape] at h

theorem isSome_natural? {ds : List Char} (hne : ds ≠ []) (hd : ∀ d ∈ ds, d.isDigit) :
    (natural? ds).isSome := by
  unfold natural?
  rw [if_pos ⟨hne, List.all_eq_true.2 hd⟩]
  rfl

theorem isSome_decimal?_digits {ds : List Char} (hne : ds ≠ []) (hd : ∀ d ∈ ds, d.isDigit) :
    (decimal? ds).isSome := by
  have hn : ds.dropWhile Char.isDigit = [] := List.dropWhile_eq_nil_iff.2 hd
  unfold decimal?
  simpa [hn] using isSome_natural? hne hd

theorem isSome_decimal?_point {ds ps : List Char} (hd : ∀ d ∈ ds, d.isDigit) (hne : ps ≠ [])
    (hp : ∀ d ∈ ps, d.isDigit) : (decimal? (ds ++ '.' :: ps)).isSome := by
  have hpoint : Char.isDigit '.' = false := rfl
  have ht : (ds ++ '.' :: ps).takeWhile Char.isDigit = ds := by
    simp [List.takeWhile_append_of_pos hd, hpoint]
  have hr : (ds ++ '.' :: ps).dropWhile Char.isDigit = '.' :: ps := by
    simp [List.dropWhile_append_of_pos hd, hpoint]
  have hn : (natural? (ds ++ ps)).isSome := by
    refine isSome_natural? (by simp [hne]) fun d h => ?_
    exact (List.mem_append.1 h).elim (hd d) (hp d)
  unfold decimal?
  simpa [ht, hr, hne] using hn

theorem isSome_decimal?_unsignedNumeral {cs : List Char} (h : startsDigits cs) :
    (decimal? (unsignedNumeral cs)).isSome := by
  have hw : ∀ d ∈ cs.takeWhile Char.isDigit, d.isDigit := List.all_eq_true.1 List.all_takeWhile
  have hcs := List.takeWhile_append_dropWhile (p := Char.isDigit) (l := cs)
  -- without digits in front there is a point, and digits come after it
  have hwhole : cs.takeWhile Char.isDigit = [] →
      ∃ d ds, cs.dropWhile Char.isDigit = '.' :: d :: ds ∧ d.isDigit := by
    intro hnil
    unfold startsDigits at h
    split at h
    next d ds => exact ⟨d, ds, by simp [show Char.isDigit '.' = false from rfl], h⟩
    next c ds _ => simp [h] at hnil
    next => simp at h
  unfold unsignedNumeral
  dsimp only
  split
  next d ds hr =>
    split
    next hd =>
      refine isSome_decimal?_point hw (by simp) fun x hx => ?_
      rcases List.mem_cons.1 hx with rfl | hx
      · exact hd
      · exact List.all_eq_true.1 List.all_takeWhile x hx
    next hd =>
      refine isSome_decimal?_digits (fun hnil => ?_) hw
      obtain ⟨d', ds', hr', hd'⟩ := hwhole hnil
      rw [hr] at hr'
      cases hr'
      exact hd hd'
  next hr =>
    refine isSome_decimal?_digits (fun hnil => ?_) hw
    obtain ⟨d, ds, hr', -⟩ := hwhole hnil
    exact hr d ds hr'

theorem isSome_ofNumeral?_numeral {cs : List Char} (h : startsNumber cs) :
    (Binary64.ofNumeral? (numeral cs)).isSome := by
  unfold numeral
  split
  next cs =>
    simpa [Binary64.ofNumeral?] using isSome_decimal?_unsignedNumeral h
  next cs =>
    simpa [Binary64.ofNumeral?] using isSome_decimal?_unsignedNumeral h
  next h₁ h₂ =>
    have hd : startsDigits cs := by grind [startsNumber]
    obtain ⟨rest, hrest⟩ := unsignedNumeral_le cs
    unfold Binary64.ofNumeral?
    split
    next ds hn => exact absurd hrest.symm (by rw [hn]; exact h₁ _)
    next ds hn => exact absurd hrest.symm (by rw [hn]; exact h₂ _)
    next => simpa using isSome_decimal?_unsignedNumeral hd

theorem marks_proper {m : List Char × Token.Kind} (h : m ∈ marks) (n : Nat) :
    Token.Proper ⟨m.2, String.ofList m.1, n⟩ := by
  constructor
  all_goals
    revert m
    dsimp only
    decide

theorem token_proper {cs : List Char} {s : Scan (Token.Kind × String)} (h : token cs = .ok s)
    (n : Nat) : Token.Proper ⟨s.value.1, s.value.2, n⟩ := by
  unfold token at h
  split at h
  · cases h
    constructor <;> simp
  repeat' split at h
  all_goals cases h
  · constructor <;> simp
  · constructor <;> simp
  next hh =>
    have hv := name_ne_nil_of_head (Bool.and_eq_true_iff.1 hh).2
    constructor <;> simp [hv]
  next hn => constructor <;> simp [isSome_ofNumeral?_numeral hn]
  next hn => constructor <;> simp [name_ne_nil hn]
  next m kind hm => exact marks_proper (List.mem_of_find?_eq_some hm) n

end Scan

namespace Lexer
variable {l : Lexer} {t : Token} {source pre : List Char} {ts : List Token}

theorem step_eq_ok {l' : Lexer} (h : l.step = (.ok t, l')) :
    ∃ xs ys, l.input = xs ++ (ys ++ l'.input) ∧ t.position = l.offset + byteSize xs ∧
      l'.offset = l.offset + byteSize xs + byteSize ys ∧
      l'.finished = decide (t.kind = .endOfInput) ∧ t.Proper := by
  have hc := Scan.spelling_comments l.input
  unfold step at h
  dsimp only at h
  split at h
  next s hs =>
    cases h
    refine ⟨(Scan.comments l.input).spelling, s.spelling, ?_, rfl, rfl, rfl, Scan.token_proper hs _⟩
    rw [Scan.spelling_token hs, hc]
  next => cases h

theorem run_of_finished (h : l.finished) : l.run = [] := by
  rw [run, if_pos h]

theorem position_lt_of_step {l' : Lexer} (h : l.step = (.ok t, l')) (ht : t.kind ≠ .endOfInput) :
    t.position < l'.offset := by
  unfold step at h
  dsimp only at h
  split at h
  next s hs =>
    cases h
    exact Nat.lt_add_of_pos_right (byteSize_pos (Scan.spelling_token_ne_nil hs ht))
  next => cases h

/-- Induction over the tokens of a lexer that meets no error, from the last one on. -/
theorem run_induction {P : Lexer → List Token → Prop} (finished : ∀ l, l.finished → P l [])
    (step : ∀ l l' t ts, ¬l.finished → l.step = (.ok t, l') → l'.run = ts.map .ok → P l' ts →
      P l (t :: ts))
    (h : l.run = ts.map .ok) : P l ts := by
  induction l using Lexer.run.induct generalizing ts with
  | case1 l hl =>
    rw [run_of_finished hl] at h
    have hnil : ts = [] := by simpa using h.symm
    rw [hnil]
    exact finished l hl
  | case2 l hl ih =>
    rw [run, if_neg hl] at h
    cases ts with
    | nil => contradiction
    | cons t ts =>
      rw [List.map_cons, List.cons.injEq] at h
      exact step l _ t ts hl (Prod.ext h.1 rfl) h.2 (ih h.2)

theorem run_last (h : l.run = ts.map .ok) (hf : ¬l.finished) :
    ∃ us t, ts = us ++ [t] ∧ t.kind = .endOfInput ∧ ∀ u ∈ us, u.kind ≠ .endOfInput := by
  revert hf
  refine run_induction (P := fun l ts => ¬l.finished →
    ∃ us t, ts = us ++ [t] ∧ t.kind = .endOfInput ∧ ∀ u ∈ us, u.kind ≠ .endOfInput) ?_ ?_ h
  · exact fun l hl hf => absurd hl hf
  · intro l l' t ts _ hs hr ih _
    obtain ⟨-, -, -, -, -, hfin, -⟩ := step_eq_ok hs
    by_cases hk : t.kind = .endOfInput
    · have hnil : ts = [] := by
        rw [run_of_finished (by simp [hfin, hk])] at hr
        simpa using hr.symm
      exact ⟨[], t, by simp [hnil], hk, by simp⟩
    · obtain ⟨vs, u, rfl, hu, hvs⟩ := ih (by simp [hfin, hk])
      refine ⟨t :: vs, u, rfl, hu, ?_⟩
      simpa using ⟨hk, hvs⟩

theorem run_proper (h : l.run = ts.map .ok) : ∀ t ∈ ts, t.Proper := by
  refine run_induction (P := fun _ ts => ∀ t ∈ ts, t.Proper) (by simp) ?_ h
  intro l l' t ts _ hs _ ih
  obtain ⟨-, -, -, -, -, -, ht⟩ := step_eq_ok hs
  simpa using ⟨ht, ih⟩

theorem run_placed (h : l.run = ts.map .ok) :
    ∀ t ∈ ts, ∃ xs ys, l.input = xs ++ ys ∧ t.position = l.offset + byteSize xs := by
  refine run_induction (P := fun l ts =>
    ∀ t ∈ ts, ∃ xs ys, l.input = xs ++ ys ∧ t.position = l.offset + byteSize xs) (by simp) ?_ h
  intro l l' t ts _ hs _ ih
  obtain ⟨xs, ys, hi, ht, ho, -, -⟩ := step_eq_ok hs
  refine List.forall_mem_cons.2 ⟨⟨xs, _, hi, ht⟩, fun u hu => ?_⟩
  obtain ⟨zs, rest, hz, hp⟩ := ih u hu
  refine ⟨xs ++ (ys ++ zs), rest, by simp [hi, hz], ?_⟩
  rw [hp, ho]
  simp only [byteSize_append]
  omega

theorem run_increasing (h : l.run = ts.map .ok) :
    ts.Pairwise fun t u => t.position < u.position := by
  refine run_induction (P := fun _ ts => ts.Pairwise fun t u => t.position < u.position)
    (fun _ _ => .nil) ?_ h
  intro l l' t ts _ hs hr ih
  refine List.pairwise_cons.2 ⟨fun u hu => ?_, ih⟩
  obtain ⟨-, -, -, -, -, hfin, -⟩ := step_eq_ok hs
  by_cases hk : t.kind = .endOfInput
  · -- behind the end of the input there is no other token
    have hnil : ts = [] := by
      rw [run_of_finished (by simp [hfin, hk])] at hr
      simpa using hr.symm
    simp [hnil] at hu
  · obtain ⟨xs, -, -, hp⟩ := run_placed hr u hu
    have hlt := position_lt_of_step hs hk
    omega

theorem run_ordered (h : l.run = ts.map .ok) (hi : source = pre ++ l.input)
    (ho : l.offset = byteSize pre) : ts.Pairwise (Token.Before source) := by
  revert pre
  refine run_induction (P := fun l ts => ∀ {pre}, source = pre ++ l.input →
    l.offset = byteSize pre → ts.Pairwise (Token.Before source)) (by simp) ?_ h
  intro l l' t ts _ hs hr ih pre hi ho
  obtain ⟨xs, ys, hin, ht, hoff, -, -⟩ := step_eq_ok hs
  have hsource : source = (pre ++ (xs ++ ys)) ++ l'.input := by simp [hi, hin]
  have hoffset : l'.offset = byteSize (pre ++ (xs ++ ys)) := by simp [hoff, ho, Nat.add_assoc]
  refine List.pairwise_cons.2 ⟨fun u hu => ?_, ih hsource hoffset⟩
  obtain ⟨zs, rest, hz, hp⟩ := run_placed hr u hu
  have hslice := slice?_append (pre ++ xs) (ys ++ zs) rest
  have hs' : source = pre ++ xs ++ (ys ++ zs) ++ rest := by simp [hsource, hz]
  have ht' : t.position = byteSize (pre ++ xs) := by simp [ht, ho]
  have hu' : u.position = byteSize (pre ++ xs) + byteSize (ys ++ zs) := by
    simp [hp, hoff, ho, Nat.add_assoc]
  rw [Token.Before, hs', ht', hu', hslice]
  rfl

end Lexer

theorem eq_map_ok_of_mapM {α ε : Type} {xs : List (Except ε α)} {as : List α}
    (h : xs.mapM id = .ok as) : xs = as.map .ok := by
  induction xs generalizing as with
  | nil =>
    cases h
    rfl
  | cons x xs ih =>
    rw [List.mapM_cons] at h
    cases x with
    | error e => contradiction
    | ok a =>
      cases hx : xs.mapM id with
      | error e =>
        rw [hx] at h
        contradiction
      | ok bs =>
        rw [hx] at h
        cases h
        rw [ih hx, List.map_cons]

/-- The tokens of a text. The last one, and no other, is the end of the input. -/
theorem tokenize_eq_ok {text : String} {ts : List Token} (h : tokenize text = .ok ts) :
    Lexed text.toList ts ∧
      ∃ us t, ts = us ++ [t] ∧ t.kind = .endOfInput ∧ ∀ u ∈ us, u.kind ≠ .endOfInput := by
  have hr := eq_map_ok_of_mapM h
  have hf : ¬(Lexer.ofString text).finished := by simp [Lexer.ofString]
  refine ⟨⟨Lexer.run_proper hr, fun t ht => ?_, ?_⟩, Lexer.run_last hr hf⟩
  · obtain ⟨xs, ys, hi, hp⟩ := Lexer.run_placed hr t ht
    have hslice := slice?_append xs [] ys
    have ht' : t.position = byteSize xs := by simpa [Lexer.ofString] using hp
    have hs : text.toList = xs ++ [] ++ ys := by simpa [Lexer.ofString] using hi
    rw [Token.Before, ht', hs]
    simpa [byteSize] using Option.isSome_of_mem (Option.mem_def.2 hslice)
  · exact Lexer.run_ordered hr (List.nil_append _).symm rfl

theorem tokenize_increasing {text : String} {ts : List Token} (h : tokenize text = .ok ts) :
    ts.Pairwise fun t u => t.position < u.position :=
  Lexer.run_increasing (eq_map_ok_of_mapM h)

theorem position_lt_of_tokenize {text : String} {ts : List Token} (h : tokenize text = .ok ts)
    {t : Token} (ht : t ∈ ts.dropLast) : t.position < byteSize text.toList := by
  obtain ⟨-, us, e, rfl, -, -⟩ := tokenize_eq_ok h
  rw [List.dropLast_concat] at ht
  have hlt : t.position < e.position :=
    (List.pairwise_append.1 (tokenize_increasing h)).2.2 t ht e List.mem_cons_self
  obtain ⟨xs, ys, hi, hp⟩ := Lexer.run_placed (eq_map_ok_of_mapM h) e (by simp)
  have hle : e.position ≤ byteSize text.toList := by
    have hi : text.toList = xs ++ ys := hi
    have hp : e.position = byteSize xs := by simpa [Lexer.ofString] using hp
    rw [hp, hi, byteSize_append]
    exact Nat.le_add_right _ _
  exact Nat.lt_of_lt_of_le hlt hle

theorem dropLast_of_tokenize {text : String} {ts : List Token} (h : tokenize text = .ok ts) :
    ts.dropLast = ts.takeWhile fun t => t.kind ≠ .endOfInput := by
  obtain ⟨-, us, t, rfl, ht, hu⟩ := tokenize_eq_ok h
  rw [List.dropLast_concat, List.takeWhile_append_of_pos (by simpa using hu)]
  simp [ht]

end CssSelector
