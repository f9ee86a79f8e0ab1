import CssSelector.Proofs.Lexing.Plain
import CssSelector.Proofs.Lexing.Spelling
import CssSelector.Proofs.Scan.Cut

set_option autoImplicit false

namespace CssSelector

namespace Scan

/-- Whether a backslash at the end is left with nothing to escape. -/
def opensEscape (cs : List Char) : Bool := cs.foldl (fun b c => !b && c = '\\') false

example : opensEscape "a\\\\ \\".toList = true := by decide

example : opensEscape "a\\\\".toList = false := by decide

section
variable {c d : Char} {cs ds xs : List Char}

theorem opensEscape_append (h : ¬opensEscape xs) (cs : List Char) :
    opensEscape (xs ++ cs) = opensEscape cs := by
  unfold opensEscape at h ⊢
  rw [List.foldl_append, Bool.not_eq_true _ |>.mp h]

theorem not_opensEscape_of_getLast? (h : '\\' ∉ cs.getLast?) : ¬opensEscape cs := by
  rcases List.eq_nil_or_concat cs with rfl | ⟨cs, c, rfl⟩
  · decide
  · have hc : c ≠ '\\' := by simpa using h
    simp [opensEscape, hc]

theorem exists_spelling_escape (c : Char) (cs : List Char) :
    ∃ xs, (escape c cs).spelling = c :: xs ∧ '\\' ∉ xs := by
  have hdigits : '\\' ∉ (cs.take 5).takeWhile isHexDigit :=
    fun h => absurd (List.mem_takeWhile_imp h) (by decide)
  unfold escape
  dsimp only
  repeat' split
  · next d _ _ hd =>
    refine ⟨_, rfl, fun h => ?_⟩
    rcases List.mem_append.1 h with h | h
    · exact hdigits h
    · rw [← List.mem_singleton.1 h] at hd
      contradiction
  · exact ⟨_, rfl, hdigits⟩
  · exact ⟨_, rfl, hdigits⟩
  · exact ⟨[], rfl, by simp⟩

theorem not_opensEscape_escape (c : Char) (cs : List Char) :
    ¬opensEscape ('\\' :: (escape c cs).spelling) := by
  obtain ⟨xs, hxs, hback⟩ := exists_spelling_escape c cs
  have hfront : opensEscape ['\\', c] = false := by simp [opensEscape]
  have hrest : ¬opensEscape xs :=
    not_opensEscape_of_getLast? fun h => hback (List.mem_of_getLast? h)
  rw [hxs, show '\\' :: c :: xs = ['\\', c] ++ xs from rfl, opensEscape_append (by simp [hfront])]
  exact hrest

theorem not_opensEscape_name (cs : List Char) : ¬opensEscape (name cs).spelling := by
  fun_induction name cs with
  | case1 | case4 | case5 => exact Bool.false_ne_true
  | case2 c cs hc e ih =>
    change ¬opensEscape (('\\' :: e.spelling) ++ (name e.rest).spelling)
    rwa [opensEscape_append (not_opensEscape_escape c cs)]
  | case3 c cs hno hc ih =>
    change ¬opensEscape ([c] ++ (name cs).spelling)
    rwa [opensEscape_append]
    simp [opensEscape, ne_backslash_of_isNameChar hc]

/-! What a token may end with. -/

theorem getLast?_quoted {quote : Char} {s : Scan (List Char)} (h : quoted quote cs = some s) :
    s.spelling.getLast? = some quote := by
  have hlast {xs ys : List Char} (hy : ys.getLast? = some quote) :
      (xs ++ ys).getLast? = some quote := by rw [List.getLast?_append, hy]; rfl
  fun_induction quoted quote cs generalizing s with
  | case1 | case3 | case4 => contradiction
  | case2 => cases h; rfl
  | case5 _ _ _ ih =>
    obtain ⟨t, ht, rfl⟩ := Option.map_eq_some_iff.1 h
    exact hlast (ih ht)
  | case6 d cs =>
    rename_i ih
    obtain ⟨t, ht, rfl⟩ := Option.map_eq_some_iff.1 h
    exact hlast (ih ht)
  | case7 _ _ _ _ _ ih =>
    obtain ⟨t, ht, rfl⟩ := Option.map_eq_some_iff.1 h
    exact hlast (ih ht)

theorem mem_unsignedNumeral (h : c ∈ unsignedNumeral cs) : c.isDigit ∨ c = '.' := by
  unfold unsignedNumeral at h
  dsimp only at h
  have hdigit {x : Char} {xs : List Char} (hx : x ∈ xs.takeWhile Char.isDigit) : x.isDigit :=
    List.mem_takeWhile_imp hx
  repeat' split at h
  · next d ds _ hd =>
    simp only [List.mem_append, List.mem_cons] at h
    rcases h with h | rfl | rfl | h
    · exact .inl (hdigit h)
    · exact .inr rfl
    · exact .inl hd
    · exact .inl (hdigit h)
  · exact .inl (hdigit h)
  · exact .inl (hdigit h)

theorem mem_numeral (h : c ∈ numeral cs) : c.isDigit ∨ c ∈ ['+', '-', '.'] := by
  unfold numeral at h
  split at h
  · rcases List.mem_cons.1 h with rfl | h
    · simp
    · exact (mem_unsignedNumeral h).imp_right fun h => by simp [h]
  · rcases List.mem_cons.1 h with rfl | h
    · simp
    · exact (mem_unsignedNumeral h).imp_right fun h => by simp [h]
  · exact (mem_unsignedNumeral h).imp_right fun h => by simp [h]

/-- Of the tokens with something other than white space in them only names and hashes may end with
white space or a backslash. -/
theorem token_cases {s : Scan (Token.Kind × String)} (h : token cs = .ok s) :
    (s.value.1 = .whitespace ∧ ∀ c ∈ s.spelling, isSpace c) ∨
    (¬startsNumber cs ∧ startsName cs ∧
      s = ⟨(.ident, String.ofList (name cs).value), (name cs).spelling, (name cs).rest⟩) ∨
    (∃ ds, cs = '#' :: ds ∧ (ds.head?.any isNameChar || startsEscape ds) ∧
      s = ⟨(.hash, String.ofList (name ds).value), '#' :: (name ds).spelling, (name ds).rest⟩) ∨
    ∀ c ∈ s.spelling.getLast?, ¬isSpace c ∧ c ≠ '\\' := by
  cases token_eq_ok.1 h with
  | endOfInput => simp
  | space hc =>
    exact .inl ⟨rfl, List.forall_mem_cons.2 ⟨hc, fun x hx => List.mem_takeWhile_imp hx⟩⟩
  | @string c _ _ hquote hs =>
    refine .inr (.inr (.inr fun x hx => ?_))
    rw [List.getLast?_cons, getLast?_quoted hs] at hx
    obtain rfl : c = x := by simpa using hx
    rcases hquote with rfl | rfl <;> decide
  | @hash ds hopen => exact .inr (.inr (.inl ⟨ds, rfl, hopen, rfl⟩))
  | number =>
    refine .inr (.inr (.inr fun x hx => ?_))
    have hall : ∀ y ∈ ['+', '-', '.'], ¬isSpace y ∧ y ≠ '\\' := List.all_iff_forall_prop.1 (by decide)
    rcases mem_numeral (List.mem_of_getLast? hx) with hd | hm
    · refine ⟨fun hs => ?_, ?_⟩
      · have hends : EndsWord [x] := endsWord_of_isSpace (by simpa using hs)
        exact hends.name x rfl (isNameChar_of_isDigit hd)
      · rintro rfl
        exact absurd hd (by decide)
    · exact hall x hm
  | name hnum hname => exact .inr (.inl ⟨hnum, hname, rfl⟩)
  | mark _ _ _ hm =>
    have hall : ∀ m ∈ marks, ∀ x ∈ m.1.getLast?, ¬isSpace x ∧ x ≠ '\\' := by
      simp [marks, isSpace]
    exact .inr (.inr (.inr (hall _ (List.mem_of_find?_eq_some hm))))

theorem not_opensEscape_token {s : Scan (Token.Kind × String)} (h : token cs = .ok s) :
    ¬opensEscape s.spelling := by
  obtain ⟨-, hspace⟩ | ⟨-, -, rfl⟩ | ⟨ds, -, -, rfl⟩ | hlast := token_cases h
  · exact not_opensEscape_of_getLast? fun hm =>
      absurd (hspace _ (List.mem_of_getLast? hm)) (by decide)
  · exact not_opensEscape_name cs
  · rw [← List.singleton_append, opensEscape_append (by decide)]
    exact not_opensEscape_name ds
  · exact not_opensEscape_of_getLast? fun hm => (hlast _ hm).2 rfl

/-! White space behind an escape, a name or a token. -/

theorem escape_append_space (c : Char) (cs : List Char) :
    (∀ d ds, isSpace d → escape c (cs ++ d :: ds) = (escape c cs).before (d :: ds)) ∨
      (escape c cs).rest = [] ∧ ∀ d ds, isSpace d →
        escape c (cs ++ d :: ds) = ⟨(escape c cs).value, (escape c cs).spelling ++ [d], ds⟩ := by
  by_cases hc : isHexDigit c
  case neg =>
    left
    intro d ds _
    unfold escape
    rw [if_neg hc, if_neg hc]
    rfl
  have htake (d : Char) (ds : List Char) (hd : isSpace d) :
      ((cs ++ d :: ds).take 5).takeWhile isHexDigit = (cs.take 5).takeWhile isHexDigit := by
    have hhead : ∀ x ∈ (d :: ds).head?, ¬isHexDigit x := by
      rintro x ⟨⟩
      exact isHexDigit_of_isSpace hd
    rw [List.take_append]
    exact takeWhile_append_of_head (fun x hx => hhead x (head?_take_subset hx)) _
  generalize hdigits : (cs.take 5).takeWhile isHexDigit = digits at htake
  obtain ⟨rest, rfl⟩ : digits <+: cs := by
    rw [← hdigits]
    exact (List.takeWhile_prefix _).trans (List.take_prefix 5 cs)
  rcases rest with _ | ⟨e, rest⟩
  · right
    rw [List.append_nil] at hdigits htake ⊢
    have hnone : ∀ x ∈ ([] : List Char).head?, ¬isSpace x := by simp
    have hshort := @escape_of_digits c [] digits hc (by rwa [List.append_nil]) hnone
    rw [List.append_nil] at hshort
    rw [hshort]
    exact ⟨rfl, fun d ds hd => escape_of_space hc (htake d ds hd) hd⟩
  · left
    intro d ds hd
    replace htake := htake d ds hd
    rw [List.append_assoc] at htake ⊢
    by_cases he : isSpace e
    · rw [escape_of_space hc hdigits he]
      exact escape_of_space hc htake he
    · have hnone {ys : List Char} : ∀ x ∈ (e :: ys).head?, ¬isSpace x := by
        rintro x ⟨⟩
        exact he
      rw [escape_of_digits hc hdigits hnone]
      exact escape_of_digits hc htake hnone

theorem name_append_space (hd : isSpace d) (hds : ∀ x ∈ ds, isSpace x)
    (h : (name (cs ++ d :: ds)).rest = []) (ho : ¬opensEscape cs) :
    name cs = ⟨(name (cs ++ d :: ds)).value, cs, []⟩ := by
  have hstop {xs : List Char} (hx : ∀ x ∈ xs, isSpace x) : name xs = ⟨[], [], xs⟩ := by
    have hends := endsWord_of_isSpace fun x h => hx x (List.mem_of_head? h)
    exact name_of_head hends.name hends.backslash
  fun_induction name cs with
  | case1 cs =>
    rw [List.cons_append, List.cons_append, name, if_pos rfl] at h
    contradiction
  | case2 c cs hc e ih =>
    rw [List.cons_append, List.cons_append, name, if_neg hc] at h ⊢
    have hspelling := spelling_escape c cs
    rcases escape_append_space c cs with hmore | ⟨hrest, hmore⟩
    · rw [hmore d ds hd] at h ⊢
      rw [← hspelling, ← List.cons_append, opensEscape_append (not_opensEscape_escape c cs)] at ho
      rw [ih h ho]
      simp [push, e, hspelling, before]
    · rw [hmore d ds hd] at h ⊢
      change (name ds).rest = [] at h
      obtain rfl : ds = [] := by rwa [hstop hds] at h
      rw [hrest, List.append_nil] at hspelling
      simp [push, e, hspelling, hrest, name]
  | case3 c cs hno hc ih =>
    have hback := ne_backslash_of_isNameChar hc
    rw [List.cons_append, name.eq_2 _ _ (fun _ _ e => (hback e).elim), if_pos hc] at h ⊢
    rw [← List.singleton_append, opensEscape_append (by simp [opensEscape, hback])] at ho
    rw [ih h ho]
    rfl
  | case4 c cs hno hc =>
    have hno' : ∀ x xs, c = '\\' → cs ++ d :: ds = x :: xs → False := by
      rintro x xs rfl hx
      cases cs with
      | nil => exact ho (by decide)
      | cons y ys => exact hno y ys rfl rfl
    rw [List.cons_append, name.eq_2 _ _ hno', if_neg hc] at h
    contradiction
  | case5 =>
    rw [List.nil_append, hstop (List.forall_mem_cons.2 ⟨hd, hds⟩)] at h
    contradiction

theorem token_trim {rest : List Char} {kind : Token.Kind} {text : String}
    (h : token (cs ++ (ds ++ rest)) = .ok ⟨(kind, text), cs ++ ds, rest⟩) (hcs : cs ≠ [])
    (hlast : ∀ c ∈ cs.getLast?, ¬isSpace c) (hds : ∀ d ∈ ds, isSpace d) (ho : ¬opensEscape cs) :
    token cs = .ok ⟨(kind, text), cs, []⟩ := by
  have hcut := token_cut h (List.nil_prefix (l := rest)) (by simp)
  rw [List.append_nil, cut_mk] at hcut
  dsimp only at hcut
  rcases ds with _ | ⟨d, ds⟩
  · rwa [List.append_nil] at hcut
  obtain ⟨hd, hds'⟩ := List.forall_mem_cons.1 hds
  have hends : EndsWord (d :: ds) := endsWord_of_isSpace fun x hx => hds x (List.mem_of_head? hx)
  obtain ⟨-, hspace⟩ | ⟨hnum, hname, hs⟩ | ⟨es, he, hopen, hs⟩ | hend := token_cases hcut
  · have hx := List.getLast?_eq_some_getLast hcs
    exact absurd (hspace _ (List.mem_append_left _ (List.getLast_mem hcs))) (hlast _ hx)
  · obtain ⟨⟨rfl, rfl⟩, hspelling, hrest⟩ : (kind = .ident ∧ text = _) ∧ _ ∧ _ := by
      simpa only [Scan.mk.injEq, Prod.mk.injEq] using hs
    have hstart := startsName_append hends.name hends.backslash hcs
      (by rintro rfl; exact ho (by decide)) (by rintro rfl; exact ho (by decide))
    have hnum' : ¬startsNumber cs := fun hn => hnum (startsNumber_mono hn (List.prefix_append _ _))
    rw [token_name hnum' (hstart.symm.trans hname), name_append_space hd hds' hrest.symm ho]
  · obtain ⟨c, cs, rfl⟩ := List.exists_cons_of_ne_nil hcs
    rw [List.cons_append] at he
    cases he
    obtain ⟨⟨rfl, rfl⟩, -, hrest⟩ : (kind = .hash ∧ text = _) ∧ _ ∧ _ := by
      simpa only [Scan.mk.injEq, Prod.mk.injEq] using hs
    change [] = (name (cs ++ d :: ds)).rest at hrest
    change (cs ++ d :: ds).head?.any isNameChar || startsEscape (cs ++ d :: ds) at hopen
    rw [← List.singleton_append, opensEscape_append (by decide)] at ho
    have hne : cs ≠ [] := by
      rintro rfl
      have hname : isNameChar d = false := by simpa using hends.name d rfl
      have hback : d ≠ '\\' := fun h => hends.backslash (by simp [h])
      simp [startsEscape, hname, hback] at hopen
    rw [startsEscape_append hne (by rintro rfl; exact ho (by decide)),
      List.head?_append_of_ne_nil _ hne] at hopen
    rw [token_hash hopen, name_append_space hd hds' hrest.symm ho]
  · refine absurd (hds _ ?_) (hend ((d :: ds).getLast (by simp)) ?_).1
    · exact List.getLast_mem _
    · simp [List.getLast?_eq_some_getLast]

end
end Scan
end CssSelector
