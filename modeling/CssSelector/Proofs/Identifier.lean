import CssSelector.Proofs.Tiling
import CssSelector.Proofs.Warnings

/-!
The names of ID selectors. They come from hash tokens, and those take whatever name characters stand
behind the number sign. So the name is an identifier in itself, as the names of tags, classes and
attributes are, unless it is written with a digit in front, or with a hyphen and then a digit or
nothing (`Dialect.ids_of_parse`).
-/

set_option autoImplicit false

namespace CssSelector

open Text

namespace Scan

/-- A digit in front, or a hyphen with a digit or nothing behind it. -/
def lacksNameStart : List Char → Bool
  | ['-'] => true
  | '-' :: c :: _ => c.isDigit
  | c :: _ => c.isDigit
  | [] => false

section
variable {c : Char} {cs : List Char}

theorem lacksNameStart_of_ne (h : c ≠ '-') (cs : List Char) :
    lacksNameStart (c :: cs) = c.isDigit := by
  simp [lacksNameStart, h]

theorem eq_backslash_of_startsEscape (h : startsEscape (c :: cs)) : c = '\\' := by
  unfold startsEscape at h
  split at h
  case h_1 e => exact (List.cons.inj e).1
  case h_2 => contradiction

theorem not_isDigit_of_startsEscape (h : startsEscape (c :: cs)) : ¬c.isDigit := by
  rw [eq_backslash_of_startsEscape h]
  decide

theorem not_isDigit_of_isNameStart (h : isNameStart c) : ¬c.isDigit := fun hd =>
  not_startsNumber_of_isNameStart h [] (startsNumber_of_isDigit hd [])

theorem not_isDigit_iff (h : isNameChar c ∨ startsEscape (c :: cs)) :
    ¬c.isDigit ↔ isNameStart c ∨ c = '-' ∨ startsEscape (c :: cs) := by
  constructor
  · intro hd
    refine h.elim (fun hc => ?_) fun he => .inr (.inr he)
    rw [isNameChar, Bool.or_eq_true, Bool.or_eq_true, decide_eq_true_eq] at hc
    obtain (hs | hd') | hm := hc
    · exact .inl hs
    · exact absurd hd' hd
    · exact .inr (.inl hm)
  · rintro (hs | rfl | he)
    · exact not_isDigit_of_isNameStart hs
    · decide
    · exact not_isDigit_of_startsEscape he

theorem spelling_name_cases (cs : List Char) :
    (name cs).spelling = [] ∨
      (name cs).spelling.head?.any isNameChar || startsEscape (name cs).spelling := by
  by_cases h : cs.head?.any isNameChar || startsEscape cs
  · have hopen := opensHash_spelling_name h []
    rw [List.append_nil] at hopen
    exact .inr hopen
  · rw [Bool.or_eq_true, not_or] at h
    refine .inl ?_
    unfold name
    split
    case h_1 c cs =>
      have hc : c = '\n' := by simpa [startsEscape] using h.2
      rw [if_pos hc]
    case h_2 c cs _ =>
      rw [if_neg (by simpa using h.1)]
    case h_3 => rfl

/-- What is taken for a name, where one may go on, starts a name if it does not lack its start. -/
theorem startsName_spelling_iff (h : cs.head?.any isNameChar || startsEscape cs) :
    startsName (name cs).spelling ↔ ¬lacksNameStart (name cs).spelling := by
  have hopen := opensHash_spelling_name h []
  have hsplit := spelling_name cs
  rw [List.append_nil, Bool.or_eq_true] at hopen
  cases hsp : (name cs).spelling with
  | nil => simp [hsp, startsEscape] at hopen
  | cons c xs =>
    rw [hsp] at hopen hsplit
    by_cases hc : c = '-'
    · -- the rest is what is taken for a name from behind the hyphen
      subst hc
      generalize hds : xs ++ (name cs).rest = ds
      rw [List.cons_append, hds] at hsplit
      rw [← hsplit, spelling_name_of_isNameChar (by decide), List.cons.injEq] at hsp
      rw [← hsp.2]
      obtain hnil | hgoes := spelling_name_cases ds
      · rw [hnil]
        decide
      · cases hes : (name ds).spelling with
        | nil => simp [hes, startsEscape] at hgoes
        | cons d es =>
          rw [hes, Bool.or_eq_true] at hgoes
          rw [startsName_hyphen]
          exact (not_isDigit_iff hgoes).symm
    · rw [startsName_of_ne hc, lacksNameStart_of_ne hc, not_isDigit_iff hopen]
      simp [hc]

theorem not_startsNumber_of_startsName (h : startsName cs) : ¬startsNumber cs := by
  rcases cs with _ | ⟨c, cs⟩
  · contradiction
  by_cases hc : c = '-'
  · subst hc
    obtain ⟨d, ds, rfl⟩ := exists_cons_of_startsName h
    intro hn
    have hd : d.isDigit ∨ d = '.' := by
      change startsDigits (d :: ds) at hn
      unfold startsDigits at hn
      grind
    have hpoint : ∀ x, isNameStart x ∨ x = '-' ∨ x = '\\' → x ≠ '.' := by
      rintro _ hx rfl
      exact absurd hx (by decide)
    have hstart := (startsName_hyphen d ds).1 h
    have hdigit : ¬d.isDigit := by
      obtain hs | rfl | he := hstart
      · exact not_isDigit_of_isNameStart hs
      · decide
      · exact not_isDigit_of_startsEscape he
    have hback := hstart.imp_right (Or.imp_right eq_backslash_of_startsEscape)
    exact hd.elim hdigit (hpoint d hback)
  · obtain hs | he := (startsName_of_ne hc cs).1 h
    · exact not_startsNumber_of_isNameStart hs cs
    · rw [eq_backslash_of_startsEscape he]
      exact Bool.false_ne_true

theorem startsName_of_token {s : Scan (Token.Kind × String)} (h : token cs = .ok s)
    (hs : s.value.1 = .ident) : startsName cs := by
  cases token_eq_ok.1 h with
  | name _ hname => exact hname
  | mark _ _ _ hm =>
    have hall : ∀ m ∈ marks, m.2 ≠ .ident := by decide
    exact absurd hs (hall _ (List.mem_of_find?_eq_some hm))
  | _ => contradiction

theorem exists_of_token_hash {s : Scan (Token.Kind × String)} (h : token cs = .ok s)
    (hs : s.value.1 = .hash) :
    ∃ ds, (ds.head?.any isNameChar || startsEscape ds) ∧ cs = '#' :: ds ∧
      s = ⟨(.hash, String.ofList (name ds).value), '#' :: (name ds).spelling, (name ds).rest⟩ := by
  cases token_eq_ok.1 h with
  | @hash ds hopen => exact ⟨ds, hopen, rfl, rfl⟩
  | mark _ _ _ hm =>
    have hall : ∀ m ∈ marks, m.2 ≠ .hash := by decide
    exact absurd hs (hall _ (List.mem_of_find?_eq_some hm))
  | _ => contradiction

theorem token_spelling_name (h : startsName (name cs).spelling) :
    token (name cs).spelling =
      .ok ⟨(.ident, String.ofList (name cs).value), (name cs).spelling, []⟩ := by
  have hcut := name_cut (List.nil_prefix (l := (name cs).rest)) (by simp)
  rw [List.append_nil] at hcut
  rw [token_name (not_startsNumber_of_startsName h) h, hcut]
  rfl

end
end Scan

open Scan

/-- What is taken for a name is lexed by itself to one identifier exactly where it starts a name. -/
theorem tokenize_spelling_name_iff (cs : List Char) :
    tokenize (String.ofList (name cs).spelling) =
        .ok [⟨.ident, String.ofList (name cs).value, 0⟩,
          ⟨.endOfInput, "", byteSize (name cs).spelling⟩] ↔
      startsName (name cs).spelling := by
  constructor
  · intro h
    obtain ⟨pre, post, s, hsource, hpos, hs, hvalue⟩ := exists_scan_of_tokenize [] h
    obtain rfl : pre = [] := by
      by_contra hne
      exact absurd hpos (byteSize_pos hne).ne
    rw [String.toList_ofList, List.nil_append] at hsource
    rw [hsource]
    exact startsName_of_token hs (by rw [hvalue])
  · intro h
    have hlex : Lexes 0 (name cs).spelling [⟨.ident, String.ofList (name cs).value, 0⟩] [] :=
      .token (by decide) (by rw [List.append_nil]; exact token_spelling_name h)
    have htokens := Lexes.tokenize_eq (s := String.ofList (name cs).spelling)
      (by rw [String.toList_ofList]; exact hlex)
    rwa [String.toList_ofList] at htokens

/-- The characters of a text that a token is made of. -/
def Token.WrittenAs (text : String) (t : Token) (cs : List Char) : Prop :=
  ∃ pre post, text.toList = pre ++ (cs ++ post) ∧ t.position = byteSize pre ∧
    Scan.token (cs ++ post) = .ok ⟨(t.kind, t.text), cs, post⟩

theorem Token.WrittenAs.unique {text : String} {t : Token} {cs ds : List Char}
    (h : t.WrittenAs text cs) (k : t.WrittenAs text ds) : cs = ds := by
  obtain ⟨pre, post, htext, hpos, htoken⟩ := h
  obtain ⟨pre', post', htext', hpos', htoken'⟩ := k
  have hsplit := splitAt?_append pre (cs ++ post)
  rw [← htext, ← hpos, htext', hpos', splitAt?_append] at hsplit
  obtain ⟨rfl, hrest⟩ := Prod.mk.inj (Option.some.inj hsplit)
  rw [hrest, htoken] at htoken'
  exact congrArg Scan.spelling (Except.ok.inj htoken')

theorem exists_writtenAs_of_hash {text : String} {ts : List Token} (h : tokenize text = .ok ts)
    {t : Token} (ht : t ∈ ts) (hk : t.kind = .hash) :
    ∃ cs, (cs.head?.any isNameChar || startsEscape cs) ∧ t.text = String.ofList (name cs).value ∧
      t.WrittenAs text ('#' :: (name cs).spelling) := by
  obtain ⟨before, after, rfl⟩ := List.append_of_mem ht
  obtain ⟨pre, post, s, hsource, hpos, hs, hvalue⟩ := exists_scan_of_tokenize before h
  obtain ⟨cs, hopen, rfl, rfl⟩ := exists_of_token_hash hs (by rw [hvalue, hk])
  have htext : String.ofList (name cs).value = t.text := congrArg Prod.snd hvalue
  have hcs : '#' :: (name cs).spelling ++ (name cs).rest = '#' :: cs := by
    rw [List.cons_append, spelling_name]
  refine ⟨cs, hopen, htext.symm, pre, (name cs).rest, by rw [hcs, hsource], hpos, ?_⟩
  rw [hcs, hs, hk, htext]

/-! The names of ID selectors in a tree, in the order of the text. -/

mutual

def Selector.ids : Selector → List String
  | ⟨rs⟩ => idsOfRules rs

def idsOfRules : List Rule → List String
  | [] => []
  | r :: rs => r.ids ++ idsOfRules rs

def Rule.ids : Rule → List String
  | ⟨is⟩ => idsOfItems is

def idsOfItems : List Item → List String
  | [] => []
  | i :: is => i.ids ++ idsOfItems is

def Item.ids : Item → List String
  | .idName name => [name]
  | .pseudo _ _ (some a) => a.ids
  | _ => []

def Argument.ids : Argument → List String
  | .selector s => s.ids
  | .formulaOfSelector _ (some s) => s.ids
  | _ => []

end

theorem idsOfItems_append (is js : List Item) :
    idsOfItems (is ++ js) = idsOfItems is ++ idsOfItems js := by
  induction is with
  | nil => rfl
  | cons i is ih => simp [idsOfItems, ih]

def hashTexts (ts : List Token) : List String := (ts.filter (·.kind = .hash)).map Token.text

theorem hashTexts_append (ts us : List Token) :
    hashTexts (ts ++ us) = hashTexts ts ++ hashTexts us := by
  rw [hashTexts, List.filter_append, List.map_append]
  rfl

theorem hashTexts_sublist {ts us : List Token} (h : ts.Sublist us) :
    (hashTexts ts).Sublist (hashTexts us) := (h.filter _).map _

namespace Parse

def Phrase.ids : Phrase → List String
  | .selector s => s.ids
  | .rules rs => idsOfRules rs
  | .rule r => r.ids
  | .link is => idsOfItems is
  | .links is => idsOfItems is
  | .compound is => idsOfItems is
  | .items _ is => idsOfItems is
  | .item i => i.ids
  | .argument _ _ a => (a.map Argument.ids).getD []
  | .body _ a => a.ids

theorem Reads.ids {c : Context} {xs : List Token} {p : Phrase} {ms : List Mention}
    (h : Reads c xs p ms) : p.ids.Sublist (hashTexts xs) := by
  have hleft {xs ys : List Token} {ns : List String} (h : ns.Sublist (hashTexts xs)) :
      ns.Sublist (hashTexts (xs ++ ys)) :=
    h.trans (hashTexts_sublist (List.sublist_append_left xs ys))
  have hright {xs ys : List Token} {ns : List String} (h : ns.Sublist (hashTexts ys)) :
      ns.Sublist (hashTexts (xs ++ ys)) :=
    h.trans (hashTexts_sublist (List.sublist_append_right xs ys))
  have hcons {t : Token} {ys : List Token} {ns : List String} (h : ns.Sublist (hashTexts ys)) :
      ns.Sublist (hashTexts (t :: ys)) :=
    h.trans (hashTexts_sublist (List.sublist_cons_self t ys))
  have hboth {xs ys : List Token} {ns ls : List String} (h : ns.Sublist (hashTexts xs))
      (k : ls.Sublist (hashTexts ys)) : (ns ++ ls).Sublist (hashTexts (xs ++ ys)) := by
    rw [hashTexts_append]
    exact h.append k
  induction h with
  | selector _ _ _ ihx ihy => exact hright (hboth ihx ihy)
  | rules _ _ _ _ ihx ihy => exact hcons (hright (hboth ihx ihy))
  | rule _ _ _ ihx ihy =>
    rw [Phrase.ids, Rule.ids, idsOfItems_append]
    exact hboth ihx (hleft ihy)
  | links _ _ ihx ihy =>
    rw [Phrase.ids, idsOfItems_append]
    exact hboth ihx ihy
  | descendant _ _ _ ih => exact hright ih
  | combinator _ _ _ _ _ ih => exact hright (hcons (hright ih))
  | compound _ _ ih => exact ih
  | items _ _ _ _ ihx ihy => exact hboth ihx ihy
  | @idName t ht =>
    rw [hashTexts, List.filter_cons_of_pos (by simpa using ht)]
    exact List.Sublist.refl _
  | @pseudo _ _ _ _ a _ _ _ _ _ ih => cases a <;> exact hcons (hcons ih)
  | argument _ _ _ _ _ ih => exact hcons (hleft ih)
  | selectorBody _ ih => exact ih
  | formulaOf _ _ _ _ _ ih => exact hright (hcons (hcons ih))
  | noRules | noLinks | noItems | tagName | universal | className | «attribute» | bare |
      bareUnknown | loose | formula | formulaAlone | string | identifier | number =>
    exact List.nil_sublist _

end Parse

namespace Dialect

/-- The names of ID selectors come from hash tokens. What such a token has behind its number sign is
lexed by itself to one identifier with the same text, unless it lacks the start of a name. -/
theorem ids_of_parse {d : Dialect} {text : String} {r : Reading} (h : d.parse text = .ok r) :
    ∃ ts, tokenize text = .ok ts ∧ r.selector.ids.Sublist (hashTexts ts) ∧
      ∀ t ∈ ts, t.kind = .hash → ∃ cs, t.WrittenAs text ('#' :: cs) ∧
        (tokenize (String.ofList cs) = .ok [⟨.ident, t.text, 0⟩, ⟨.endOfInput, "", byteSize cs⟩] ↔
          ¬lacksNameStart cs) := by
  obtain ⟨ts, ht, ms, hread, -⟩ := parse_eq_ok.1 h
  refine ⟨ts, ht, ?_, fun t hmem hk => ?_⟩
  · exact hread.ids.trans (hashTexts_sublist (List.dropLast_sublist ts))
  · obtain ⟨cs, hopen, htext, hwritten⟩ := exists_writtenAs_of_hash ht hmem hk
    refine ⟨_, hwritten, ?_⟩
    rw [htext]
    exact (tokenize_spelling_name_iff cs).trans (startsName_spelling_iff hopen)

/-- An escape makes any character the start of a name, and none is needed behind two hyphens. -/
theorem ids_of_escaped_digit :
    let d : Dialect := ⟨.empty, .empty, .accept, .accept, {}, {}⟩
    let text := "#\\31 a#--"
    let t : Token := ⟨.hash, "1a", 0⟩
    d.parse text = .ok ⟨⟨[⟨[.idName "1a", .idName "--"]⟩]⟩, []⟩ ∧
      ["1a", "--"].Sublist (hashTexts [t, ⟨.hash, "--", 6⟩, ⟨.endOfInput, "", 9⟩]) ∧
      t.WrittenAs text "#\\31 a".toList ∧
      tokenize "\\31 a" = .ok [⟨.ident, "1a", 0⟩, ⟨.endOfInput, "", 5⟩] := by
  intro d text t
  have h : d.parse text = .ok ⟨⟨[⟨[.idName "1a", .idName "--"]⟩]⟩, []⟩ := by cbv
  have htokens : tokenize text = .ok [t, ⟨.hash, "--", 6⟩, ⟨.endOfInput, "", 9⟩] := by cbv
  have hwritten : t.WrittenAs text "#\\31 a".toList := ⟨[], "#--".toList, by cbv, rfl, by cbv⟩
  obtain ⟨ts, hts, hids, hall⟩ := ids_of_parse h
  cases htokens.symm.trans hts
  obtain ⟨cs, hcs, hiff⟩ := hall t List.mem_cons_self rfl
  obtain rfl := (List.cons.inj (hcs.unique hwritten)).2
  exact ⟨h, hids, hwritten, hiff.2 (by decide)⟩

theorem ids_of_digit :
    let d : Dialect := ⟨.empty, .empty, .accept, .accept, {}, {}⟩
    d.parse "#1a" = .ok ⟨⟨[⟨[.idName "1a"]⟩]⟩, []⟩ ∧
      tokenize "1a" = .ok [⟨.number, "1", 0⟩, ⟨.ident, "a", 1⟩, ⟨.endOfInput, "", 2⟩] ∧
      ¬∀ (d : Dialect) (text : String) (r : Reading), d.parse text = .ok r →
        ∃ ts, tokenize text = .ok ts ∧ r.selector.ids.Sublist (hashTexts ts) ∧
          ∀ t ∈ ts, t.kind = .hash → ∃ cs, t.WrittenAs text ('#' :: cs) ∧
            tokenize (String.ofList cs) =
              .ok [⟨.ident, t.text, 0⟩, ⟨.endOfInput, "", byteSize cs⟩] := by
  intro d
  have h : d.parse "#1a" = .ok ⟨⟨[⟨[.idName "1a"]⟩]⟩, []⟩ := by cbv
  have htokens : tokenize "1a" =
      .ok [⟨.number, "1", 0⟩, ⟨.ident, "a", 1⟩, ⟨.endOfInput, "", 2⟩] := by cbv
  refine ⟨h, htokens, fun hall => ?_⟩
  obtain ⟨ts, hts, -, hhash⟩ := hall d "#1a" _ h
  have hsource : tokenize "#1a" = .ok [⟨.hash, "1a", 0⟩, ⟨.endOfInput, "", 3⟩] := by cbv
  cases hsource.symm.trans hts
  have hwritten : Token.WrittenAs "#1a" ⟨.hash, "1a", 0⟩ "#1a".toList :=
    ⟨[], [], rfl, rfl, by cbv⟩
  obtain ⟨cs, hcs, hident⟩ := hhash _ List.mem_cons_self rfl
  obtain rfl := (List.cons.inj (hcs.unique hwritten)).2
  cases htokens.symm.trans hident

end Dialect
end CssSelector
