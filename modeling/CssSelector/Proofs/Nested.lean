import CssSelector.Proofs.Lexing.Plain
import CssSelector.Proofs.Reads.Nested
import CssSelector.Proofs.Warnings

set_option autoImplicit false

namespace CssSelector

open Text

namespace Parse

/-- A text that stands in another one is read there as it is on its own. -/
theorem reads_within_iff {d : Dialect} {front source rest : List Char} {xs : List Token}
    (hx : ∀ t ∈ xs, t.position ≤ byteSize source) {p : Phrase} {ns : List Mention} :
    Reads ⟨d, front ++ (source ++ rest)⟩ (xs.map (Token.move (byteSize front + ·))) p ns ↔
      ∃ ms, ns = ms.map (Mention.move (byteSize front + ·)) ∧ Reads ⟨d, source⟩ xs p ms := by
  have hslice (start : Nat) {stop : Nat} (hs : stop ≤ byteSize source) :
      slice? (front ++ (source ++ rest)) (byteSize front + start) (byteSize front + stop) =
        slice? source start stop := by
    rw [slice?_add, slice?_append_right_of_le hs]
  have hkept : Kept ⟨d, source⟩ ⟨d, front ++ (source ++ rest)⟩ (byteSize front + ·) xs :=
    fun t _ u hu text hs => (hslice _ (hx u hu)).trans hs
  have hback : Kept ⟨d, front ++ (source ++ rest)⟩ ⟨d, source⟩ (· - byteSize front)
      (xs.map (Token.move (byteSize front + ·))) := by
    intro t' ht u' hu text hs
    obtain ⟨t, -, rfl⟩ := List.mem_map.1 ht
    obtain ⟨u, hmem, rfl⟩ := List.mem_map.1 hu
    rw [Token.position_move, Token.position_move, hslice _ (hx u hmem)] at hs
    simpa using hs
  exact reads_move_iff (fun n => Nat.add_sub_cancel_left _ n) (.inr hkept) (.inr hback)
    fun _ _ => rfl

end Parse

/-- What a selector comes to as the argument of a pseudo-class, behind `n` bytes of other text. -/
def Reading.asArgument (name : String) (wrap : Selector → Argument) (n : Nat) (r : Reading) :
    Reading :=
  ⟨⟨[⟨[.pseudo .pseudoClass name (some (wrap r.selector))]⟩]⟩,
    r.warnings.map (Warning.move (n + ·))⟩

theorem toList_enclosed (front body : String) :
    (front ++ body ++ ")").toList = front.toList ++ (body.toList ++ [')']) := by
  simp only [String.toList_append, List.append_assoc]
  rfl

theorem lexes_pseudo (category : Category) {p : String} (hp : p ≠ "")
    (ha : ∀ c ∈ p.toList, c.isAlpha) (us : List Char) :
    Lexes 0 (category.colons ++ p ++ "(").toList
      [⟨(ItemStart.pseudo category).kind, category.colons, 0⟩,
        ⟨.ident, p, byteSize category.colons.toList⟩,
        ⟨.leftParen, "(", byteSize (category.colons ++ p).toList⟩] us := by
  obtain ⟨c, cs, hcs⟩ := List.exists_cons_of_ne_nil (l := p.toList) (by simpa using hp)
  have hname : ∀ x ∈ c :: cs, Scan.isNameStart x :=
    fun x hx => by simp [Scan.isNameStart, ha x (hcs ▸ hx)]
  have hcolons (vs : List Char) : Lexes 0 category.colons.toList
      [⟨(ItemStart.pseudo category).kind, category.colons, 0⟩] (c :: vs) := by
    have hne : ':' ≠ c := by
      rintro rfl
      exact absurd (hname ':' List.mem_cons_self) (by decide)
    cases category with
    | pseudoClass => exact .token (by decide) (Scan.token_colon (by simpa using Ne.symm hne))
    | pseudoElement => exact .token (by decide) rfl
  have hword (n : Nat) : Lexes n p.toList [⟨.ident, p, n⟩] ('(' :: us) := by
    rw [← String.ofList_toList (s := p), hcs, String.toList_ofList]
    refine .token (by decide) (Scan.token_word (hname c List.mem_cons_self) ?_ ?_ ?_)
    · exact fun x hx => by simp [Scan.isNameChar, hname x (List.mem_cons_of_mem c hx)]
    · rintro x ⟨⟩
      decide
    · simp
  have hparen (n : Nat) : Lexes n ['('] [⟨.leftParen, "(", n⟩] us := .token (by decide) rfl
  have hfront := hcolons (cs ++ ('(' :: us))
  rw [← List.cons_append, ← hcs] at hfront
  have hall := (hfront.append (hword _)).append (hparen _)
  simp only [Nat.zero_add, ← String.toList_append] at hall
  simpa using hall

theorem tokenize_pseudo {category : Category} {p body : String} (hp : p ≠ "")
    (ha : ∀ c ∈ p.toList, c.isAlpha) {xs : List Token}
    (hx : Lexes (byteSize (category.colons ++ p ++ "(").toList) body.toList xs [')']) :
    tokenize (category.colons ++ p ++ "(" ++ body ++ ")") =
      .ok (⟨(ItemStart.pseudo category).kind, category.colons, 0⟩ ::
        ⟨.ident, p, byteSize category.colons.toList⟩ ::
        ⟨.leftParen, "(", byteSize (category.colons ++ p).toList⟩ ::
        (xs ++ [⟨.rightParen, ")", byteSize (category.colons ++ p ++ "(" ++ body).toList⟩]) ++
        [⟨.endOfInput, "", byteSize (category.colons ++ p ++ "(" ++ body ++ ")").toList⟩]) := by
  have hclose (n : Nat) : Lexes n [')'] [⟨.rightParen, ")", n⟩] [] := .token (by decide) rfl
  have hfront := (lexes_pseudo category hp ha (body.toList ++ [')'])).append
    (by rwa [Nat.zero_add])
  rw [← String.toList_append] at hfront
  have hall := hfront.append (hclose _)
  rw [Nat.zero_add] at hall
  have htokens := Lexes.tokenize_eq (s := category.colons ++ p ++ "(" ++ body ++ ")")
    (by rw [String.toList_append]; exact hall)
  simpa using htokens

theorem exists_of_tokenize_pseudo {category : Category} {p body : String} {us : List Token}
    {e : Token} (hp : p ≠ "") (ha : ∀ c ∈ p.toList, c.isAlpha)
    (h : tokenize (category.colons ++ p ++ "(" ++ body ++ ")") = .ok (us ++ [e])) :
    ∃ xs, us = ⟨(ItemStart.pseudo category).kind, category.colons, 0⟩ ::
        ⟨.ident, p, byteSize category.colons.toList⟩ ::
        ⟨.leftParen, "(", byteSize (category.colons ++ p).toList⟩ :: xs ∧
      Lexer.run ⟨byteSize (category.colons ++ p ++ "(").toList, body.toList ++ [')'], false⟩ =
        (xs ++ [e]).map .ok := by
  have hfront := lexes_pseudo category hp ha (body.toList ++ [')'])
  have hrun : Lexer.run ⟨0, (category.colons ++ p ++ "(" ++ body ++ ")").toList, false⟩ =
      (us ++ [e]).map .ok := eq_map_ok_of_mapM h
  rw [Lexes, ← toList_enclosed, hrun, Nat.zero_add] at hfront
  obtain ⟨front, zs, hsplit, hf, hzs⟩ := List.map_eq_append_iff.1 hfront
  obtain rfl := List.map_injective_iff.2 (fun _ _ => Except.ok.inj) hf
  rcases List.eq_nil_or_concat zs with rfl | ⟨xs, z, rfl⟩
  · rw [Lexer.run, if_neg (by simp)] at hzs
    contradiction
  · rw [List.concat_eq_append, ← List.append_assoc] at hsplit
    obtain ⟨rfl, hz⟩ := List.append_inj' hsplit rfl
    obtain rfl := List.singleton_inj.1 hz
    exact ⟨xs, rfl, by rw [← hzs, List.concat_eq_append]⟩

theorem lexes_of (n : Nat) (us : List Char) :
    Lexes n ['o', 'f'] [⟨.ident, "of", n⟩] (' ' :: us) := by
  refine .token (by decide) (Scan.token_word (by decide) (List.forall_mem_singleton.2 rfl) ?_ (by simp))
  rintro c ⟨⟩
  decide

namespace Dialect

open Parse

theorem parseTokens_pseudo_eq_ok {d : Dialect} {source : List Char} {o t l c : Token}
    {σ : Signature} {g : ArgumentGrammar} {xs : List Token} (ho : o.kind = .colon) (ht : t.kind = .ident)
    (hne : t.text ≠ "") (hσ : d.signature? .pseudoClass t.text = some σ) (hg : σ.argument = some g)
    (hl : l.kind = .leftParen) (hx : Balanced xs) (hc : c.kind = .rightParen) {r : Reading} :
    d.parseTokens source (o :: t :: l :: (xs ++ [c])) = .ok r ↔
      ∃ a ms, r.selector = ⟨[⟨[.pseudo .pseudoClass t.text (some a)]⟩]⟩ ∧
        Reads ⟨d, source⟩ xs (.body g a) ms ∧ d.Passes ms r.warnings := by
  have hknown : d.recognises (.pseudo .pseudoClass t.text) := by simp [recognises, hσ]
  rw [parseTokens_eq_ok]
  constructor
  · rintro ⟨ms, hr, hpass⟩
    obtain ⟨a, ns, hs, rfl, hbody⟩ := (reads_pseudo_iff ho ht hne hσ hg hl hx hc).1 hr
    exact ⟨a, ns, hs, hbody, (Passes.cons_iff_of_recognises hknown).1 hpass⟩
  · rintro ⟨a, ns, hs, hbody, hpass⟩
    refine ⟨_, (reads_pseudo_iff ho ht hne hσ hg hl hx hc).2 ⟨a, ns, hs, rfl, hbody⟩, ?_⟩
    exact (Passes.cons_iff_of_recognises hknown).2 hpass

theorem parse_pseudoClass_eq_ok {d : Dialect} {p body : String} {σ : Signature}
    {g : ArgumentGrammar} (hp : p ≠ "") (ha : ∀ c ∈ p.toList, c.isAlpha)
    (hσ : d.signature? .pseudoClass p = some σ) (hg : σ.argument = some g) {xs : List Token}
    (hx : Lexes (byteSize (":" ++ p ++ "(").toList) body.toList xs [')']) (hb : Balanced xs)
    {r : Reading} :
    d.parse (":" ++ p ++ "(" ++ body ++ ")") = .ok r ↔
      ∃ a ms, r.selector = ⟨[⟨[.pseudo .pseudoClass p (some a)]⟩]⟩ ∧
        Reads ⟨d, (":" ++ p ++ "(").toList ++ (body.toList ++ [')'])⟩ xs (.body g a) ms ∧
        d.Passes ms r.warnings := by
  have htokens : tokenize (":" ++ p ++ "(" ++ body ++ ")") = .ok _ :=
    @tokenize_pseudo .pseudoClass p body hp ha xs hx
  rw [parse_of_tokenize htokens, List.dropLast_concat, toList_enclosed]
  exact parseTokens_pseudo_eq_ok (t := ⟨.ident, p, _⟩) (by rfl) (by rfl) hp hσ hg (by rfl) hb
    (by rfl)

/-- An argument that is a selector but for what is `wrap`ped around it comes to what the selector
comes to on its own. -/
theorem parse_argument_eq_ok {d : Dialect} {p body s : String} {σ : Signature}
    {g : ArgumentGrammar} (hp : p ≠ "") (ha : ∀ c ∈ p.toList, c.isAlpha)
    (hσ : d.signature? .pseudoClass p = some σ) (hg : σ.argument = some g)
    {ts us xs zs : List Token} {front rest : List Char}
    (hx : Lexes (byteSize (":" ++ p ++ "(").toList) body.toList xs [')']) (hb : Balanced xs)
    (ht : tokenize s = .ok ts) (hts : ts.dropLast = us ++ zs) (hu : Spaces us)
    (hsource : (":" ++ p ++ "(").toList ++ (body.toList ++ [')']) = front ++ (s.toList ++ rest))
    (wrap : Selector → Argument)
    (hbody : ∀ c a ms, Reads c xs (.body g a) ms ↔ ∃ T, a = wrap T ∧
      Reads c (zs.map (Token.move (byteSize front + ·))) (.selector T) ms) (r' : Reading) :
    d.parse (":" ++ p ++ "(" ++ body ++ ")") = .ok r' ↔
      ∃ r, d.parse s = .ok r ∧ r' = r.asArgument p wrap (byteSize front) := by
  have hplace : ∀ t ∈ zs, t.position ≤ byteSize s.toList := by
    intro t hmem
    exact (position_lt_of_tokenize ht (hts ▸ List.mem_append_right _ hmem)).le
  rw [parse_pseudoClass_eq_ok hp ha hσ hg hx hb, hsource]
  constructor
  · rintro ⟨a, ns, hsel, hr, hpass⟩
    obtain ⟨T, rfl, hT⟩ := (hbody _ _ _).1 hr
    obtain ⟨ms, rfl, hms⟩ := (reads_within_iff hplace).1 hT
    obtain ⟨ws, hws, hpass⟩ := (passes_move_iff _).1 hpass
    refine ⟨⟨T, ws⟩, parse_eq_ok.2 ⟨ts, ht, ms, ?_, hpass⟩, ?_⟩
    · rwa [hts, reads_spaces_append_iff hu]
    · obtain ⟨S, vs⟩ := r'
      cases hsel
      cases hws
      rfl
  · rintro ⟨r, hr, rfl⟩
    obtain ⟨ts', ht', ms, hr, hpass⟩ := parse_eq_ok.1 hr
    cases ht.symm.trans ht'
    rw [hts, reads_spaces_append_iff hu] at hr
    exact ⟨_, _, rfl, (hbody _ _ _).2 ⟨_, rfl, (reads_within_iff hplace).2 ⟨ms, rfl, hr⟩⟩,
      hpass.move _⟩

/-- The tokens of a formula, the keyword and a text: white space is a token before the keyword and
another one behind it, which takes that of the text with it. -/
theorem exists_lexes_formulaOf {t s : String} {f : Formula} {ts : List Token}
    (hf : Formula.ofText? t = some f) (hv : '\x0b' ∉ t.toList) (ht : tokenize s = .ok ts)
    (hc : ¬endsInComment s) (n : Nat) :
    ∃ us zs fs w k w', ts.dropLast = us ++ zs ∧ Spaces us ∧ ReadsFormula (fs ++ [w]) f ∧
      w.kind = .whitespace ∧ k.kind = .ident ∧ k.text = "of" ∧ w'.kind = .whitespace ∧
      Lexes n (t ++ " of " ++ s).toList (fs ++ w :: k :: w' ::
        zs.map (Token.move (n + byteSize (t ++ " of ").toList + ·))) [')'] := by
  have hbreaks : Scan.Breaks [')'] := Scan.breaks_cons (by decide) []
  have hhead : ∀ c ∈ (['o', 'f'] ++ (' ' :: s.toList ++ [')'])).head?, ¬Scan.isSpace c := by
    rintro c ⟨⟩
    decide
  obtain ⟨us, zs, hts, hu, hspace⟩ := Lexes.exists_of_space ht hc hbreaks
  obtain ⟨fs, w, hfs, hw, hread⟩ := Lexes.exists_of_read?_space hf hv hhead n
  obtain ⟨w', hw', hzs⟩ := hspace (n + byteSize (t.toList ++ [' '] ++ ['o', 'f']))
  have hbody : (t.toList ++ [' '] ++ ['o', 'f']) ++ ' ' :: s.toList =
      (t ++ " of " ++ s).toList := by simp
  have hsize : n + byteSize (t.toList ++ [' '] ++ ['o', 'f']) + 1 =
      n + byteSize (t ++ " of ").toList := by
    have hof : byteSize " of ".toList = byteSize [' '] + byteSize ['o', 'f'] + 1 := by decide
    simp only [String.toList_append, byteSize_append, hof]
    omega
  have hx := (hfs.append (lexes_of _ _)).append hzs
  rw [hbody, hsize] at hx
  exact ⟨us, zs, fs, w, _, w', hts, hu, hread, hw, rfl, rfl, hw', by simpa using hx⟩

/-- A text in the argument of a pseudo-class parses exactly if it does on its own, to the same tree
and with the same warnings, moved behind what stands in front. So it does behind a formula and
`of`. -/
theorem parse_nested {d : Dialect} {p s : String} {σ : Signature} {ts : List Token} (hp : p ≠ "")
    (ha : ∀ c ∈ p.toList, c.isAlpha) (hσ : d.signature? .pseudoClass p = some σ)
    (ht : tokenize s = .ok ts) (hb : Balanced ts.dropLast) (hc : ¬endsInComment s) :
    (σ.argument = some .selector → ∀ r', d.parse (":" ++ p ++ "(" ++ s ++ ")") = .ok r' ↔
      ∃ r, d.parse s = .ok r ∧
        r' = r.asArgument p .selector (byteSize (":" ++ p ++ "(").toList)) ∧
    (σ.argument = some .formulaOfSelector → ∀ t f, '\x0b' ∉ t.toList → Formula.ofText? t = some f →
      ∀ r', d.parse (":" ++ p ++ "(" ++ t ++ " of " ++ s ++ ")") = .ok r' ↔
        ∃ r, d.parse s = .ok r ∧ r' = r.asArgument p (fun T => .formulaOfSelector f (some T))
          (byteSize (":" ++ p ++ "(" ++ t ++ " of ").toList)) := by
  have hbreaks : Scan.Breaks [')'] := Scan.breaks_cons (by decide) []
  constructor
  · intro hg
    have hx := (Lexes.of_tokenize ht hc hbreaks).add (byteSize (":" ++ p ++ "(").toList)
    exact parse_argument_eq_ok hp ha hσ hg hx hb.move ht (List.nil_append _).symm .nil rfl _
      fun _ _ _ => reads_selectorBody_iff
  · intro hg t f hv hf
    obtain ⟨us, zs, fs, w, k, w', hts, hu, hread, hw, hk, hof, hw', hx⟩ :=
      exists_lexes_formulaOf hf hv ht hc (byteSize (":" ++ p ++ "(").toList)
    have hfront : (":" ++ p ++ "(").toList ++ (t ++ " of ").toList =
        (":" ++ p ++ "(" ++ t ++ " of ").toList := by simp
    rw [← byteSize_append, hfront] at hx
    have hbalanced := (Balanced.spaces_append hu).1 (hts ▸ hb)
    generalize hM : byteSize (":" ++ p ++ "(" ++ t ++ " of ").toList = N at hx
    have hrest : Balanced (k :: w' :: zs.map (Token.move (N + ·))) :=
      .token (by simp [hk]) (by simp [hk]) (.token (by simp [hw']) (by simp [hw']) hbalanced.move)
    have hbody (c : Context) (a : Argument) (ms : List Mention) :
        Reads c (fs ++ w :: k :: w' :: zs.map (Token.move (N + ·)))
            (.body .formulaOfSelector a) ms ↔
          ∃ T, a = .formulaOfSelector f (some T) ∧
            Reads c (zs.map (Token.move (N + ·))) (.selector T) ms := by
      have hspace : Spaces [w'] := by simpa using hw'
      rw [reads_formulaOf_iff hread hw hk (by rw [hof]; decide)]
      exact exists_congr fun T => and_congr_right' (reads_spaces_append_iff hspace)
    have hsource : (":" ++ p ++ "(").toList ++ ((t ++ " of " ++ s).toList ++ [')']) =
        (":" ++ p ++ "(" ++ t ++ " of ").toList ++ (s.toList ++ [')']) := by simp
    subst hM
    have hparse := parse_argument_eq_ok hp ha hσ hg hx
      (by simpa using hread.balanced.append hrest) ht hts hu hsource _ hbody
    simpa only [String.append_assoc] using hparse

theorem parse_nested_of :
    let known : NameMap Signature := .insert (.insert .empty "is" (.required .selector)) "nth"
      (.required .formulaOfSelector)
    let d : Dialect := ⟨known, .empty, .accept, .accept, {}, {}⟩
    let item (n : String) (a : Argument) : Selector := ⟨[⟨[.pseudo .pseudoClass n (some a)]⟩]⟩
    let s := " :is( of )/* ) */ "
    let T := item "is" (.selector ⟨[⟨[.tagName "of"]⟩]⟩)
    d.parse s = .ok ⟨T, []⟩ ∧
      d.parse (":" ++ "Is" ++ "(" ++ s ++ ")") = .ok ⟨item "Is" (.selector T), []⟩ ∧
      d.parse (":" ++ "nth" ++ "(" ++ "2n + 1 " ++ " of " ++ s ++ ")") =
        .ok ⟨item "nth" (.formulaOfSelector ⟨2, 1⟩ (some T)), []⟩ := by
  intro known d item s T
  have hs : d.parse s = .ok ⟨T, []⟩ := by cbv
  have hc : endsInComment s = false := by cbv
  have hIs : ∀ c ∈ "Is".toList, c.isAlpha := List.all_eq_true.1 (by decide)
  have hNth : ∀ c ∈ "nth".toList, c.isAlpha := List.all_eq_true.1 (by decide)
  obtain ⟨ts, ht, ms, hr, -⟩ := parse_eq_ok.1 hs
  have his := parse_nested (p := "Is") (by decide) hIs (show d.signature? _ _ = _ by rfl)
    ht hr.balanced (by simp [hc])
  have hnth := parse_nested (p := "nth") (by decide) hNth (show d.signature? _ _ = _ by rfl)
    ht hr.balanced (by simp [hc])
  exact ⟨hs, (his.1 rfl _).2 ⟨_, hs, rfl⟩,
    (hnth.2 rfl "2n + 1 " ⟨2, 1⟩ (by decide) (by decide) _).2 ⟨_, hs, rfl⟩⟩

end Dialect
end CssSelector
