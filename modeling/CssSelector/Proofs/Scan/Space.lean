import CssSelector.Proofs.Scan.Trim

set_option autoImplicit false

namespace CssSelector.Scan

variable {cs : List Char}

theorem stops_of_isSpace {d : Char} (h : isSpace d) (ds : List Char) : Stops (d :: ds) := by
  have hall : ∀ c, isSpace c → ¬isNameChar c ∧ c ∉ ['\\', '=', ':', '.'] := by
    intro c hc
    simp only [isSpace, Bool.or_eq_true, decide_eq_true_eq] at hc
    rcases hc with (((rfl | rfl) | rfl) | rfl) | rfl <;> decide
  constructor <;> rintro _ ⟨⟩
  · exact (hall d h).1
  · exact (hall d h).2

theorem name_append_spaces (hr : (name cs).rest ≠ ['\\']) :
    (∀ d ds, isSpace d → name (cs ++ d :: ds) = (name cs).before (d :: ds)) ∨
      (name cs).rest = [] ∧ ∀ d ds, isSpace d → name ds = ⟨[], [], ds⟩ →
        name (cs ++ d :: ds) = ⟨(name cs).value, (name cs).spelling ++ [d], ds⟩ := by
  fun_induction name cs with
  | case1 cs => exact .inl fun d ds _ => by simp [name]
  | case2 c cs hc e ih =>
    have hmore (us : List Char) : name ('\\' :: c :: cs ++ us) =
        (name (escape c (cs ++ us)).rest).push (escape c (cs ++ us)).value
          ('\\' :: (escape c (cs ++ us)).spelling) := by
      rw [List.cons_append, List.cons_append, name, if_neg hc]
    obtain he | ⟨hnil, he⟩ := escape_append_space c cs
    · obtain h | ⟨hrest, h⟩ := ih hr
      · refine .inl fun d ds hd => ?_
        rw [hmore, he d ds hd]
        exact congrArg (push e.value ('\\' :: e.spelling)) (h d ds hd)
      · refine .inr ⟨hrest, fun d ds hd hds => ?_⟩
        rw [hmore, he d ds hd]
        exact (congrArg (push e.value ('\\' :: e.spelling)) (h d ds hd hds)).trans (by simp [push])
    · have hempty : name e.rest = ⟨[], [], []⟩ := by simp [e, hnil, name]
      rw [hempty]
      refine .inr ⟨rfl, fun d ds hd hds => ?_⟩
      rw [hmore, he d ds hd]
      simp [hds, push, e]
  | case3 c cs hno hc ih =>
    have hmore (us : List Char) : name (c :: cs ++ us) = (name (cs ++ us)).push c [c] := by
      have hne := ne_backslash_of_isNameChar hc
      rw [List.cons_append, name.eq_2 _ _ (fun _ _ h => (hne h).elim), if_pos hc]
    obtain h | ⟨hrest, h⟩ := ih hr
    · exact .inl fun d ds hd => (hmore _).trans (congrArg (push c [c]) (h d ds hd))
    · exact .inr ⟨hrest, fun d ds hd hds => (hmore _).trans (congrArg (push c [c]) (h d ds hd hds))⟩
  | case4 c cs hno hc =>
    refine .inl fun d ds hd => ?_
    have hne : ∀ x xs, c = '\\' → cs ++ d :: ds = x :: xs → False := by
      rintro x xs rfl h
      cases cs with
      | nil => exact hr rfl
      | cons y ys => exact hno y ys rfl rfl
    rw [List.cons_append, name.eq_2 _ _ hne, if_neg hc]
    rfl
  | case5 =>
    refine .inl fun d ds hd => ?_
    have hstops := stops_of_isSpace hd ds
    exact name_of_head hstops.name hstops.backslash

theorem name_rest_name (cs : List Char) :
    name (name cs).rest = ⟨[], [], (name cs).rest⟩ := by
  fun_induction name cs with
  | case1 cs => simp [name]
  | case2 c cs hc e ih => exact ih
  | case3 c cs hno hc ih => exact ih
  | case4 c cs hno hc => rw [name.eq_2 _ _ hno, if_neg hc]
  | case5 => simp [name]

theorem name_rest_token {s : Scan (Token.Kind × String)} (h : token cs = .ok s)
    (hk : s.value.1 ∈ [.ident, .hash]) : name s.rest = ⟨[], [], s.rest⟩ := by
  cases token_eq_ok.1 h with
  | hash => exact name_rest_name _
  | name => exact name_rest_name _
  | endOfInput | space | string | number => simp at hk
  | mark _ _ _ hm =>
    have hall : ∀ m ∈ marks, m.2 ∉ [.ident, .hash] := by decide
    exact absurd hk (hall _ (List.mem_of_find?_eq_some hm))

theorem token_space_of_kind {s : Scan (Token.Kind × String)} (h : token cs = .ok s)
    (hk : s.value.1 = .whitespace) : s.value = (.whitespace, " ") ∧ (∀ c ∈ s.spelling, isSpace c) ∧
      ∀ c ∈ s.rest.head?, ¬isSpace c := by
  cases token_eq_ok.1 h with
  | space hc =>
    refine ⟨rfl, List.forall_mem_cons.2 ⟨hc, fun x hx => List.mem_takeWhile_imp hx⟩, ?_⟩
    exact head?_of_prefix_dropWhile (List.prefix_refl _)
  | mark _ _ _ hm =>
    have hall : ∀ m ∈ marks, m.2 ≠ .whitespace := by decide
    exact absurd hk (hall _ (List.mem_of_find?_eq_some hm))
  | _ => simp at hk

theorem token_append_space (hne : cs ≠ []) {s : Scan (Token.Kind × String)}
    (h : token cs = .ok s) (hr : s.rest ≠ ['\\']) :
    (∀ d ds, isSpace d → token (cs ++ d :: ds) = .ok (s.before (d :: ds))) ∨
      s.rest = [] ∧ (s.value.1 = .whitespace ∨ s.value.1 ∈ [.ident, .hash] ∧
        ∀ d ds, isSpace d → name ds = ⟨[], [], ds⟩ →
          token (cs ++ d :: ds) = .ok ⟨s.value, s.spelling ++ [d], ds⟩) := by
  by_cases hopen : OpenToSpace s
  case neg =>
    exact .inl fun d ds hd => token_append (stops_of_isSpace hd ds) hne h hr fun ho => absurd ho hopen
  obtain ⟨hnil, hkind⟩ := hopen
  cases token_eq_ok.1 h with
  | endOfInput => contradiction
  | space => exact .inr ⟨hnil, .inl rfl⟩
  | string | number => simp at hkind
  | @hash cs hopen =>
    have hmore (us : List Char) : token ('#' :: cs ++ us) =
        .ok ⟨(.hash, String.ofList (name (cs ++ us)).value), '#' :: (name (cs ++ us)).spelling,
          (name (cs ++ us)).rest⟩ := by
      have hopen' := opensHash_spelling_name hopen us
      have hspelling := spelling_name cs
      rw [hnil, List.append_nil] at hspelling
      rw [hspelling] at hopen'
      exact token_hash hopen'
    obtain hname | ⟨-, hname⟩ := name_append_spaces hr
    · exact .inl fun d ds hd => by rw [hmore, hname d ds hd]; rfl
    · exact .inr ⟨hnil, .inr ⟨by simp, fun d ds hd hds => by rw [hmore, hname d ds hd hds]; rfl⟩⟩
  | name hnum hstart =>
    have hmore (d : Char) (ds : List Char) (hd : isSpace d) : token (cs ++ d :: ds) =
        .ok ⟨(.ident, String.ofList (name (cs ++ d :: ds)).value), (name (cs ++ d :: ds)).spelling,
          (name (cs ++ d :: ds)).rest⟩ := by
      have hstops := stops_of_isSpace hd ds
      have hnum' : ¬startsNumber (cs ++ d :: ds) := by
        rwa [startsNumber_append hstops.digit hstops.point hne]
      exact token_name hnum' (startsName_mono hstart (List.prefix_append _ _))
    obtain hname | ⟨-, hname⟩ := name_append_spaces hr
    · exact .inl fun d ds hd => by rw [hmore d ds hd, hname d ds hd]; rfl
    · exact .inr ⟨hnil, .inr ⟨by simp, fun d ds hd hds => by rw [hmore d ds hd, hname d ds hd hds]⟩⟩
  | mark _ _ _ hm =>
    have hall : ∀ m ∈ marks, m.2 ∉ [.whitespace, .ident, .hash] := by decide
    exact absurd hkind (hall _ (List.mem_of_find?_eq_some hm))

end CssSelector.Scan
