import CssSelector.Proofs.Move
import CssSelector.Proofs.Scan
import CssSelector.Proofs.Tokens

/-!
Lexing a text piece by piece. The tokens of a text with another one behind it are those of the two
texts (`tokenize_append`) where the first one is lexed alike whatever comes next, as it is where it
leaves no comment open and the second one does not go on with its last token
(`Lexes.of_tokenize`).
-/

set_option autoImplicit false

namespace CssSelector

open Text

namespace Scan

def closesComment : List Char → Bool
  | '*' :: '/' :: _ => true
  | _ :: cs => closesComment cs
  | [] => false

/-- Whether one of the comments in front is never closed. -/
def opensComment : List Char → Bool
  | '/' :: '*' :: cs => !closesComment cs || opensComment (commentBody cs).rest
  | _ => false
termination_by cs => cs.length
decreasing_by
  have := congrArg List.length (spelling_commentBody cs)
  simp at *
  omega

theorem commentBody_append {cs : List Char} (h : closesComment cs) (us : List Char) :
    commentBody (cs ++ us) = (commentBody cs).before us := by
  fun_induction commentBody cs with
  | case1 => rfl
  | case2 c cs hno ih =>
    rw [closesComment.eq_2 _ _ hno] at h
    have hno' : ∀ ds, c = '*' → cs ++ us = '/' :: ds → False := by
      rintro ds rfl hds
      cases cs with
      | nil => contradiction
      | cons d cs =>
        obtain ⟨rfl, -⟩ := List.cons.inj hds
        exact hno cs rfl rfl
    rw [List.cons_append, commentBody.eq_2 _ _ hno', ih h]
    rfl
  | case3 => contradiction

theorem comments_append {cs : List Char} (h : ¬opensComment cs) (us : List Char) :
    comments (cs ++ us) = (comments ((comments cs).rest ++ us)).after (comments cs).spelling := by
  fun_induction comments cs with
  | case1 cs body ih =>
    rw [opensComment, Bool.or_eq_true, not_or] at h
    obtain ⟨hc, ho⟩ := h
    have hb := commentBody_append (by simpa using hc) us
    rw [List.cons_append, List.cons_append, comments, hb]
    change (comments (body.rest ++ us)).after ('/' :: '*' :: body.spelling) = _
    rw [ih ho]
    simp [after]
  | case2 cs hno => simp [after]

theorem comments_of_head {cs : List Char} (h : '/' ∉ cs.head?) : comments cs = ⟨(), [], cs⟩ := by
  rw [comments.eq_2]
  rintro ds rfl
  exact h rfl

theorem head?_ne_of_token {cs : List Char} {s : Scan (Token.Kind × String)} (h : token cs = .ok s) :
    '/' ∉ cs.head? := by
  rcases cs with _ | ⟨c, cs⟩
  · simp
  · rintro ⟨⟩
    have he : token ('/' :: cs) = .error (.invalidCharacter '/') := rfl
    rw [he] at h
    contradiction

theorem eq_nil_of_token {cs : List Char} {s : Scan (Token.Kind × String)} (h : token cs = .ok s)
    (hs : s.value.1 = .endOfInput) : cs = [] := by
  cases token_eq_ok.1 h with
  | endOfInput => rfl
  | mark _ _ _ hm =>
    have hall : ∀ m ∈ marks, m.2 ≠ .endOfInput := by decide
    exact absurd hs (hall _ (List.mem_of_find?_eq_some hm))
  | _ => contradiction

end Scan

namespace Lexer

def endsInComment (l : Lexer) : Bool :=
  if l.finished then false else Scan.opensComment l.input || l.step.2.endsInComment
termination_by l.fuel
decreasing_by exact fuel_step ‹_›

def moveItem (f : Nat → Nat) : Except LexError Token → Except LexError Token
  | .ok t => .ok (t.move f)
  | .error e => .error (e.move f)

theorem step_add (k n : Nat) (cs : List Char) :
    step ⟨k + n, cs, false⟩ = (moveItem (k + ·) (step ⟨n, cs, false⟩).1,
      { (step ⟨n, cs, false⟩).2 with offset := k + (step ⟨n, cs, false⟩).2.offset }) := by
  unfold step
  dsimp only
  split <;> simp [moveItem, Token.move, LexError.move, Nat.add_assoc]

/-- A lexer that starts later hands out the same items with later offsets. -/
theorem run_add (k : Nat) (l : Lexer) :
    run { l with offset := k + l.offset } = l.run.map (moveItem (k + ·)) := by
  induction l using Lexer.run.induct with
  | case1 l hl =>
    rw [run_of_finished hl, run_of_finished (by exact hl)]
    rfl
  | case2 l hl ih =>
    obtain ⟨n, cs, _ | _⟩ := l
    · rw [run, if_neg (by simp), run.eq_1 ⟨n, cs, false⟩, if_neg (by simp), step_add, List.map_cons,
        ← ih]
    · contradiction

theorem step_of_token {cs us : List Char} {kind : Token.Kind} {text : String}
    (hk : kind ≠ .endOfInput) (h : Scan.token (cs ++ us) = .ok ⟨(kind, text), cs, us⟩) (n : Nat) :
    step ⟨n, cs ++ us, false⟩ = (.ok ⟨kind, text, n⟩, ⟨n + byteSize cs, us, false⟩) := by
  unfold step
  rw [Scan.comments_of_head (Scan.head?_ne_of_token h)]
  simp [h, byteSize, hk]

end Lexer

/-- Whether a comment is open at the end of the text. -/
def endsInComment (text : String) : Bool := (Lexer.ofString text).endsInComment

example : endsInComment "a /* b" = true := by cbv

example : endsInComment "a /* b */ [c='/*']" = false := by cbv

/-- The piece `cs` at the offset `n` is lexed as the tokens `ts`, where `us` comes behind it. -/
def Lexes (n : Nat) (cs : List Char) (ts : List Token) (us : List Char) : Prop :=
  Lexer.run ⟨n, cs ++ us, false⟩ = ts.map .ok ++ Lexer.run ⟨n + byteSize cs, us, false⟩

namespace Lexes
variable {n : Nat} {cs ds us : List Char} {ts vs : List Token}

theorem nil (n : Nat) (us : List Char) : Lexes n [] [] us := rfl

theorem append (h : Lexes n cs ts (ds ++ us)) (k : Lexes (n + byteSize cs) ds vs us) :
    Lexes n (cs ++ ds) (ts ++ vs) us := by
  unfold Lexes at h k ⊢
  rw [List.append_assoc, h, k, List.map_append, List.append_assoc, byteSize_append, Nat.add_assoc]

theorem add (h : Lexes n cs ts us) (k : Nat) :
    Lexes (k + n) cs (ts.map (Token.move (k + ·))) us := by
  have hl := Lexer.run_add k ⟨n, cs ++ us, false⟩
  have hr := Lexer.run_add k ⟨n + byteSize cs, us, false⟩
  dsimp only at hl hr
  rw [Lexes, hl, h, List.map_append, Nat.add_assoc, hr, List.map_map, List.map_map]
  rfl

theorem token {kind : Token.Kind} {text : String} (hk : kind ≠ .endOfInput)
    (h : Scan.token (cs ++ us) = .ok ⟨(kind, text), cs, us⟩) :
    Lexes n cs [⟨kind, text, n⟩] us := by
  rw [Lexes, Lexer.run, if_neg (by simp), Lexer.step_of_token hk h]
  rfl

end Lexes

namespace Lexer
variable {us : List Char}

theorem step_append_of_comments {cs : List Char} (hc : ¬Scan.opensComment cs)
    (hr : (Scan.comments cs).rest = []) (n : Nat) :
    step ⟨n, cs ++ us, false⟩ = step ⟨n + byteSize cs, us, false⟩ := by
  have hs := Scan.spelling_comments cs
  rw [hr, List.append_nil] at hs
  unfold step
  dsimp only
  rw [Scan.comments_append hc, hr, hs]
  simp [Scan.after, Nat.add_assoc]

theorem step_append {n : Nat} {cs : List Char} {t : Token} {l : Lexer} (hu : Scan.Breaks us)
    (hc : ¬Scan.opensComment cs) (h : step ⟨n, cs, false⟩ = (.ok t, l))
    (ht : t.kind ≠ .endOfInput) (hl : l.input ≠ ['\\']) :
    step ⟨n, cs ++ us, false⟩ = (.ok t, { l with input := l.input ++ us }) := by
  unfold step at h ⊢
  dsimp only at h ⊢
  split at h
  next s hs =>
    cases h
    have hne : (Scan.comments cs).rest ≠ [] := by
      intro hnil
      rw [hnil] at hs
      cases hs
      exact ht rfl
    have hhead : '/' ∉ ((Scan.comments cs).rest ++ us).head? := by
      obtain ⟨d, ds, hd⟩ := List.exists_cons_of_ne_nil hne
      have hhead := Scan.head?_ne_of_token hs
      rw [hd] at hhead ⊢
      exact hhead
    have happ := Scan.token_append hu.toStops hne hs hl fun _ => hu.space
    rw [Scan.comments_append hc, Scan.comments_of_head hhead]
    simp [Scan.after, happ, Scan.before]
  next => cases h

theorem input_ne_of_run {l : Lexer} {ts : List Token} (h : l.run = ts.map .ok)
    (hf : ¬l.finished) : l.input ≠ ['\\'] := by
  rintro hi
  have he : l.step.1 = .error ⟨.invalidCharacter '\\', l.offset⟩ := by
    unfold step
    rw [hi, Scan.comments_of_head (by simp)]
    rfl
  rw [run, if_neg hf, he] at h
  cases ts with
  | nil => contradiction
  | cons t ts => simp at h

/-- What is lexed without an error, and leaves no comment open, is lexed alike in front of a text
that does not go on with its last token. -/
theorem lexes_of_run {l : Lexer} {ts : List Token} (hu : Scan.Breaks us) (h : l.run = ts.map .ok)
    (hf : ¬l.finished) (hc : ¬l.endsInComment) : Lexes l.offset l.input ts.dropLast us := by
  revert hf hc
  refine run_induction (P := fun l ts => ¬l.finished → ¬l.endsInComment →
    Lexes l.offset l.input ts.dropLast us) (fun _ hl hf => absurd hl hf) ?_ h
  rintro ⟨n, cs, _ | _⟩ l' t ts hl hs hr ih _ hc
  case true => contradiction
  rw [endsInComment, if_neg hl, Bool.or_eq_true, not_or, hs] at hc
  obtain ⟨hopen, hc⟩ := hc
  obtain ⟨xs, ys, hin, -, hoff, hfin, -⟩ := step_eq_ok hs
  by_cases ht : t.kind = .endOfInput
  · have hnil : ts = [] := by
      rw [run_of_finished (by simp [hfin, ht])] at hr
      simpa using hr.symm
    have hrest : (Scan.comments cs).rest = [] := by
      unfold step at hs
      dsimp only at hs
      split at hs
      next s hs' =>
        cases hs
        exact Scan.eq_nil_of_token hs' ht
      next => cases hs
    rw [hnil, Lexes, run, if_neg (by simp), run.eq_1 ⟨n + byteSize cs, us, false⟩,
      if_neg (by simp), step_append_of_comments hopen hrest]
    rfl
  · have hf : ¬l'.finished := by simp [hfin, ht]
    have hstep := step_append hu hopen hs ht (input_ne_of_run hr hf)
    have hrest := ih hf hc
    have hne : ts ≠ [] := by
      rintro rfl
      rw [run, if_neg hf] at hr
      contradiction
    obtain ⟨m, es, f⟩ := l'
    obtain rfl : f = false := by simpa using hf
    have hsize : n + byteSize cs = m + byteSize es := by
      dsimp only at hin hoff
      rw [hin, hoff]
      simp only [byteSize_append]
      omega
    rw [Lexes, run, if_neg (by simp), hstep, List.dropLast_cons_of_ne_nil hne, List.map_cons,
      List.cons_append, hsize]
    exact congrArg (Except.ok t :: ·) hrest

end Lexer

theorem Lexes.of_tokenize {text : String} {ts : List Token} (h : tokenize text = .ok ts)
    (hc : ¬endsInComment text) {us : List Char} (hu : Scan.Breaks us) :
    Lexes 0 text.toList ts.dropLast us :=
  Lexer.lexes_of_run hu (eq_map_ok_of_mapM h) (by simp [Lexer.ofString]) hc

section
variable {text : String} {ts : List Token} {us : List Char}

theorem Scan.head?_dropWhile_isSpace (cs : List Char) (hu : ∀ c ∈ us.head?, ¬Scan.isSpace c) :
    ∀ c ∈ (cs.dropWhile Scan.isSpace ++ us).head?, ¬Scan.isSpace c := by
  have hno := List.head?_dropWhile_not Scan.isSpace cs
  cases hr : cs.dropWhile Scan.isSpace with
  | nil => exact hu
  | cons d ds =>
    rintro c ⟨⟩
    rw [hr] at hno
    simpa using hno

theorem Lexes.exists_behind_spaces (h : tokenize text = .ok ts) (hc : ¬endsInComment text)
    (hu : Scan.Breaks us) :
    ∃ s zs, ts.dropLast = s ++ zs ∧ (∀ t ∈ s, t.kind = .whitespace) ∧
      Lexes (byteSize (text.toList.takeWhile Scan.isSpace)) (text.toList.dropWhile Scan.isSpace)
        zs us := by
  have hsplit := List.takeWhile_append_dropWhile (p := Scan.isSpace) (l := text.toList)
  have hspaces : ∀ c ∈ text.toList.takeWhile Scan.isSpace, Scan.isSpace c :=
    List.all_eq_true.1 List.all_takeWhile
  by_cases hnil : text.toList.takeWhile Scan.isSpace = []
  · have hlex := Lexes.of_tokenize h hc hu
    rw [hnil, List.nil_append] at hsplit
    rw [hnil, hsplit]
    exact ⟨[], ts.dropLast, rfl, by simp, hlex⟩
  · have hend : ∀ c ∈ ([] : List Char).head?, ¬Scan.isSpace c := by simp
    have hhead := Scan.head?_dropWhile_isSpace text.toList hend
    rw [List.append_nil] at hhead
    have hstep := Lexer.step_of_token (by decide) (Scan.token_spaces hnil hspaces hhead) 0
    rw [hsplit] at hstep
    have hrun : (Lexer.ofString text).run = ts.map .ok := eq_map_ok_of_mapM h
    rw [endsInComment, Lexer.endsInComment, Lexer.ofString, if_neg (by simp), hstep,
      Bool.or_eq_true, not_or] at hc
    rw [Lexer.run, Lexer.ofString, if_neg (by simp), hstep] at hrun
    obtain ⟨w, zs, rfl, hw, hrest⟩ := List.map_eq_cons_iff.1 hrun.symm
    cases hw
    have hne : zs ≠ [] := by
      rintro rfl
      rw [Lexer.run, if_neg (by simp)] at hrest
      exact absurd hrest (by simp)
    have hlex := Lexer.lexes_of_run hu hrest.symm (by simp) hc.2
    rw [Nat.zero_add] at hlex
    refine ⟨[⟨.whitespace, " ", 0⟩], zs.dropLast, ?_, by simp, hlex⟩
    rw [List.dropLast_cons_of_ne_nil hne]
    rfl

theorem Lexes.exists_of_space (h : tokenize text = .ok ts) (hc : ¬endsInComment text)
    (hu : Scan.Breaks us) :
    ∃ s zs, ts.dropLast = s ++ zs ∧ (∀ t ∈ s, t.kind = .whitespace) ∧
      ∀ n, ∃ w : Token, w.kind = .whitespace ∧
        Lexes n (' ' :: text.toList) (w :: zs.map (Token.move (n + 1 + ·))) us := by
  obtain ⟨s, zs, hts, hs, hlex⟩ := Lexes.exists_behind_spaces h hc hu
  refine ⟨s, zs, hts, hs, fun n => ⟨⟨.whitespace, " ", n⟩, rfl, ?_⟩⟩
  have hspaces : ∀ c ∈ ' ' :: text.toList.takeWhile Scan.isSpace, Scan.isSpace c :=
    List.forall_mem_cons.2 ⟨rfl, List.all_eq_true.1 List.all_takeWhile⟩
  have hword : Lexes n (' ' :: text.toList.takeWhile Scan.isSpace) [⟨.whitespace, " ", n⟩]
      (text.toList.dropWhile Scan.isSpace ++ us) :=
    .token (by decide) (Scan.token_spaces (by simp) hspaces
      (Scan.head?_dropWhile_isSpace text.toList hu.space))
  have hsize : n + 1 + byteSize (text.toList.takeWhile Scan.isSpace) =
      n + byteSize (' ' :: text.toList.takeWhile Scan.isSpace) := by
    have hone : ' '.utf8Size = 1 := by decide
    rw [byteSize, hone, Nat.add_assoc]
  have hrest := hlex.add (n + 1)
  rw [hsize] at hrest
  have htext := hword.append hrest
  rwa [List.cons_append, List.takeWhile_append_dropWhile] at htext

end

theorem mapM_map_ok_append {α ε : Type} (as : List α) (xs : List (Except ε α)) :
    (as.map Except.ok ++ xs).mapM id = (xs.mapM id).map (as ++ ·) := by
  induction as with
  | nil => cases h : xs.mapM id <;> simp [h, Except.map]
  | cons a as ih =>
    rw [List.map_cons, List.cons_append, List.mapM_cons, ih]
    cases xs.mapM id <;> rfl

theorem mapM_map_ok {α ε : Type} (as : List α) :
    (as.map (Except.ok (ε := ε))).mapM id = .ok as := by
  have h := mapM_map_ok_append (ε := ε) as []
  rwa [List.append_nil, List.mapM_nil, show pure [] = Except.ok [] from rfl, Except.map,
    List.append_nil] at h

theorem mapM_map_mapError {α β ε δ : Type} (f : α → β) (g : ε → δ) (xs : List (Except ε α)) :
    (xs.map fun x => (x.map f).mapError g).mapM id = ((xs.mapM id).map (List.map f)).mapError g := by
  induction xs with
  | nil => rfl
  | cons x xs ih =>
    rw [List.map_cons, List.mapM_cons, List.mapM_cons, ih]
    cases x with
    | error e => rfl
    | ok t => cases xs.mapM id <;> rfl

theorem mapM_moveItem (f : Nat → Nat) (xs : List (Except LexError Token)) :
    (xs.map (Lexer.moveItem f)).mapM id =
      ((xs.mapM id).map (List.map (Token.move f))).mapError (LexError.move f) := by
  have hmove : Lexer.moveItem f = fun x => (x.map (Token.move f)).mapError (LexError.move f) := by
    funext x
    cases x <;> rfl
  rw [hmove, mapM_map_mapError]

/-- Behind a piece of a text the tokens are those of the rest, with later offsets. -/
theorem tokenize_append {s t : String} {ts : List Token} (h : Lexes 0 s.toList ts t.toList) :
    tokenize (s ++ t) = match tokenize t with
      | .ok us => .ok (ts ++ us.map (Token.move (byteSize s.toList + ·)))
      | .error e => .error (e.move (byteSize s.toList + ·)) := by
  have hrun : (Lexer.ofString (s ++ t)).run = ts.map .ok ++
      (Lexer.ofString t).run.map (Lexer.moveItem (byteSize s.toList + ·)) := by
    rw [Lexer.ofString, String.toList_append, h, ← Lexer.run_add, Nat.zero_add]
    rfl
  rw [tokenize, hrun, mapM_map_ok_append, mapM_moveItem, ← tokenize]
  cases tokenize t <;> rfl

theorem Lexes.tokenize_eq {s : String} {ts : List Token} (h : Lexes 0 s.toList ts []) :
    tokenize s = .ok (ts ++ [⟨.endOfInput, "", byteSize s.toList⟩]) := by
  have hempty : tokenize "" = .ok [⟨.endOfInput, "", 0⟩] := by cbv
  have hs := tokenize_append (t := "") h
  rw [hempty] at hs
  simpa [Token.move] using hs

end CssSelector
