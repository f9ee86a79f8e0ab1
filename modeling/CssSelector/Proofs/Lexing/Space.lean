import CssSelector.Proofs.Lexing.Trim
import CssSelector.Proofs.Scan.Space

/-!
White space put into a text between its tokens. The tokens stay the same, those behind it at later
offsets, and there is one more token of white space, or none where the white space belongs to a token
beside it (`Gap.exists_run`).
-/

set_option autoImplicit false

namespace CssSelector

open Text

def Blank (W : List Char) : Prop := W ≠ [] ∧ ∀ c ∈ W, Scan.isSpace c

theorem Blank.stops {W : List Char} (h : Blank W) (us : List Char) : Scan.Stops (W ++ us) := by
  obtain ⟨d, ds, rfl⟩ := List.exists_cons_of_ne_nil h.1
  exact Scan.stops_of_isSpace (h.2 d List.mem_cons_self) _

/-- A text is cut in two, with the tokens `before` and `after`, at a place where there may be white
space. Some of it may be taken by the last token before the cut. -/
structure Gap (n : Nat) (before after : List Token) (pre post : List Char) : Prop where
  alone : Lexes n pre before []
  run : Lexer.run ⟨n + byteSize pre, post, false⟩ = after.map .ok
  lexes : ∀ W, Blank W → ∃ W₁ W₂, W = W₁ ++ W₂ ∧ Lexes n (pre ++ W₁) before (W₂ ++ post)

def Token.EndsWith (t : Token) (n : Nat) (pre post : List Char) : Prop :=
  ∃ xs s, t.position = n + byteSize xs ∧ pre = xs ++ s.spelling ∧
    Scan.token (s.spelling ++ post) = .ok s

structure GapBehind (n : Nat) (before after : List Token) (pre post : List Char) : Prop
    extends Gap n before after pre post where
  swap : ∀ q us, q <+: post → q ≠ ['\\'] → Scan.Stops us →
    (q = [] → ∀ c ∈ us.head?, ¬Scan.isSpace c) → Lexes n pre before (q ++ us)
  endsInComment : Lexer.endsInComment ⟨n + byteSize pre, post, false⟩ →
    Lexer.endsInComment ⟨n, pre ++ post, false⟩
  first : before = [] → pre = []
  last : ∀ t ∈ before.getLast?, t.EndsWith n pre post

namespace Lexer

open Scan

section
variable {n : Nat} {cs W post : List Char} {t : Token}

theorem exists_lexes_space {l : Lexer} (h : step ⟨n, cs, false⟩ = (.ok t, l))
    (ht : t.kind ≠ .endOfInput) (hW : Blank W) {front : List Char} (hcs : cs = front ++ l.input) :
    ∃ W₁ W₂, W = W₁ ++ W₂ ∧ Lexes n (front ++ W₁) [t] (W₂ ++ l.input) := by
  obtain ⟨s, hs, rfl, hrest, hsplit, -, -⟩ := exists_token_of_step h ht
  have hfront : front = (comments cs).spelling ++ s.spelling :=
    (List.append_cancel_right (by rw [List.append_assoc, hsplit, hcs])).symm
  have hcomments {us : List Char} := @lexes_comments _ _ us _ _ h (.inr (.inl ht))
  have hword {W₁ W₂ : List Char} (htoken : token (s.spelling ++ W₁ ++ (W₂ ++ l.input)) =
      .ok ⟨s.value, s.spelling ++ W₁, W₂ ++ l.input⟩) :
      Lexes n (front ++ W₁) [⟨s.value.1, s.value.2, n + byteSize (comments cs).spelling⟩]
        (W₂ ++ l.input) := by
    rw [hfront, List.append_assoc]
    exact hcomments.append (.token ht htoken)
  obtain ⟨hne, hspaces⟩ := hW
  obtain ⟨d, ds, rfl⟩ := List.exists_cons_of_ne_nil hne
  obtain ⟨hd, hds⟩ := List.forall_mem_cons.1 hspaces
  have hself := token_cut hs (List.nil_prefix (l := s.rest)) (by simp)
  rw [List.append_nil] at hself
  obtain htoken | ⟨-, hspace | ⟨hname, htoken⟩⟩ :=
    token_append_space (spelling_token_ne_nil hs ht) hself (by simp [cut])
  · refine ⟨[], d :: ds, rfl, hword ?_⟩
    rw [List.append_nil]
    exact htoken d _ hd
  · obtain ⟨hvalue, hall, hhead⟩ := token_space_of_kind hs hspace
    refine ⟨d :: ds, [], by simp, hword ?_⟩
    rw [hvalue, List.nil_append, ← hrest]
    refine token_spaces (by simp) (fun c hc => ?_) hhead
    exact (List.mem_append.1 hc).elim (hall c) (hspaces c)
  · refine ⟨[d], ds, rfl, hword ?_⟩
    rw [List.append_assoc, List.singleton_append]
    refine htoken d _ hd ?_
    rcases ds with _ | ⟨e, es⟩
    · rw [List.nil_append, ← hrest]
      exact name_rest_token hs hname
    · have hstops := stops_of_isSpace (hds e List.mem_cons_self) (es ++ l.input)
      exact name_of_head hstops.name hstops.backslash

end

section
variable {n : Nat} {cs front pre post : List Char} {before after : List Token}

theorem endsWith_of_step {t : Token}
    (h : step ⟨n, front ++ post, false⟩ = (.ok t, ⟨n + byteSize front, post, false⟩))
    (ht : t.kind ≠ .endOfInput) : t.EndsWith n front post := by
  obtain ⟨s, hs, rfl, hrest, hsplit, -, -⟩ := exists_token_of_step h ht
  rw [← List.append_assoc] at hsplit
  refine ⟨_, s, rfl, (List.append_cancel_right hsplit).symm, ?_⟩
  dsimp only at hrest
  rw [← hrest, spelling_token hs, hs]

theorem gapBehind_cons {b : Token}
    (h : step ⟨n, front ++ (pre ++ post), false⟩ =
      (.ok b, ⟨n + byteSize front, pre ++ post, false⟩))
    (hb : b.kind ≠ .endOfInput) (g : GapBehind (n + byteSize front) before after pre post) :
    GapBehind n (b :: before) after (front ++ pre) post := by
  obtain ⟨front', hcs, -, hfront⟩ := exists_lexes_of_step h hb
  obtain rfl : front = front' := List.append_cancel_right hcs
  dsimp only at hfront
  have hnil := g.alone
  have hsize : n + byteSize (front ++ pre) = n + byteSize front + byteSize pre := by
    rw [byteSize_append, Nat.add_assoc]
  have hswap : ∀ q us, q <+: post → q ≠ ['\\'] → Stops us →
      (q = [] → ∀ c ∈ us.head?, ¬isSpace c) → Lexes n (front ++ pre) (b :: before) (q ++ us) := by
    intro q us hq hne hu hspace
    have hback : pre ++ q ≠ ['\\'] := by
      intro h
      rcases List.append_eq_singleton_iff.1 h with ⟨-, h⟩ | ⟨h, -⟩
      · exact hne h
      · exact hnil.ne_backslash h
    have hfirst := hfront (pre ++ q) us ((List.prefix_append_right_inj pre).2 hq) hback hu
      fun h => hspace (List.append_eq_nil_iff.1 h).2
    rw [List.append_assoc] at hfirst
    exact hfirst.append (g.swap q us hq hne hu hspace)
  refine ⟨⟨hswap [] [] List.nil_prefix (by simp) breaks_nil.toStops fun _ => breaks_nil.space, ?_,
    fun W hW => ?_⟩, hswap, fun hopen => ?_, nofun, fun t ht => ?_⟩
  · rw [hsize]
    exact g.run
  · obtain ⟨W₁, W₂, rfl, hlex⟩ := g.lexes W hW
    by_cases hpre : pre = []
    · subst hpre
      obtain rfl := hnil.eq_nil
      rw [List.append_nil]
      exact exists_lexes_space h hb hW rfl
    · refine ⟨W₁, W₂, rfl, ?_⟩
      have hfirst := hfront pre ((W₁ ++ W₂) ++ post) (List.prefix_append _ _) hnil.ne_backslash
        (hW.stops post) fun h => absurd h hpre
      rw [List.append_assoc]
      exact Lexes.append (by simpa using hfirst) hlex
  · rw [hsize] at hopen
    rw [List.append_assoc, Lexer.endsInComment, if_neg (by simp), h, Bool.or_eq_true]
    exact .inr (g.endsInComment hopen)
  · by_cases hlast : before = []
    · subst hlast
      obtain rfl : b = t := Option.some.inj ht
      obtain rfl := g.first rfl
      rw [List.append_nil]
      exact endsWith_of_step h hb
    · rw [List.getLast?_cons_of_ne_nil hlast] at ht
      obtain ⟨xs, s, hpos, rfl, hscan⟩ := g.last t ht
      exact ⟨front ++ xs, s, by rw [hpos, byteSize_append, Nat.add_assoc],
        (List.append_assoc _ _ _).symm, hscan⟩

theorem exists_gap_behind (h : run ⟨n, cs, false⟩ = (before ++ after).map .ok) (ha : after ≠ []) :
    ∃ pre post, cs = pre ++ post ∧ GapBehind n before after pre post := by
  induction before generalizing n cs with
  | nil =>
    exact ⟨[], cs, rfl, ⟨⟨.nil _ _, h, fun W _ => ⟨[], W, rfl, .nil _ _⟩⟩,
      fun _ _ _ _ _ _ => .nil _ _, id, fun _ => rfl, nofun⟩⟩
  | cons b before ih =>
    obtain ⟨l, hstep, hrun⟩ := exists_of_run_cons (by simp) h
    obtain ⟨hf, hb⟩ := kind_ne_of_run_cons hstep hrun (by simp [ha])
    obtain ⟨front, hcs, hoffset, -⟩ := exists_lexes_of_step hstep hb
    obtain ⟨m, input, f⟩ := l
    obtain rfl : f = false := by simpa using hf
    obtain rfl : m = n + byteSize front := hoffset
    obtain ⟨pre, post, rfl, g⟩ := ih hrun
    obtain rfl : cs = front ++ (pre ++ post) := hcs
    exact ⟨front ++ pre, post, (List.append_assoc _ _ _).symm, gapBehind_cons hstep hb g⟩

theorem exists_gap_before {t : Token} (h : run ⟨n, cs, false⟩ = (before ++ t :: after).map .ok)
    (ht : t.kind ≠ .endOfInput ∨ ¬endsInComment ⟨n, cs, false⟩) :
    ∃ pre post, cs = pre ++ post ∧ t.position = n + byteSize pre ∧
      Gap n before (t :: after) pre post := by
  obtain ⟨pre, post, rfl, g⟩ := exists_gap_behind h (by simp)
  obtain ⟨l, hstep, hrun⟩ := exists_of_run_cons (by simp) g.run
  obtain ⟨s, -, htoken, -⟩ := exists_of_step hstep
  have hcomments {us : List Char} :=
    @lexes_comments _ _ us _ _ hstep (.inr (ht.imp_right fun h hopen => h (g.endsInComment hopen)))
  have hsplit := spelling_comments post
  have hpos : t.position = n + byteSize (pre ++ (comments post).spelling) := by
    rw [htoken, byteSize_append, Nat.add_assoc]
  refine ⟨pre ++ (comments post).spelling, (comments post).rest,
    by rw [List.append_assoc, hsplit], hpos, ⟨?_, ?_, fun W hW => ?_⟩⟩
  · have hfirst := g.swap (comments post).spelling [] ⟨_, hsplit⟩ (@hcomments []).ne_backslash
      breaks_nil.toStops fun _ => breaks_nil.space
    simpa using hfirst.append hcomments
  · rw [← hpos, run, if_neg (by simp), step_behind_comments hstep, hrun]
    rfl
  · by_cases hnil : (comments post).spelling = []
    · rw [hnil, List.nil_append] at hsplit
      rw [hnil, List.append_nil, hsplit]
      exact g.lexes W hW
    · refine ⟨[], W, rfl, ?_⟩
      have hfirst := g.swap (comments post).spelling (W ++ (comments post).rest)
        ⟨_, hsplit⟩ (@hcomments []).ne_backslash (hW.stops _) fun h => absurd h hnil
      rw [List.append_nil]
      simpa using hfirst.append hcomments

theorem run_later {k : Nat} {post : List Char} (h : run ⟨k, post, false⟩ = after.map .ok)
    (size : Nat) :
    run ⟨k + size, post, false⟩ = (after.map (Token.move (size + ·))).map .ok := by
  have hadd := run_add size ⟨k, post, false⟩
  dsimp only at hadd
  rw [Nat.add_comm k, hadd, h, List.map_map, List.map_map]
  rfl

end
end Lexer

section
variable {n : Nat} {before after : List Token} {pre post W : List Char}

open Lexer Scan

/-- Where the white space ends in front of something else it is a token of its own, if the token in
front does not take all of it. -/
theorem Lexes.exists_spaces {k : Nat} {W : List Char} (hW : ∀ c ∈ W, isSpace c)
    (hpost : W = [] ∨ ∀ c ∈ post.head?, ¬isSpace c) :
    ∃ s, Parse.Spaces s ∧ Lexes k W s post := by
  by_cases hnil : W = []
  · subst hnil
    exact ⟨[], .nil, .nil _ _⟩
  · have hhead := hpost.resolve_left hnil
    exact ⟨[⟨.whitespace, " ", k⟩], by simp [Parse.Spaces],
      .token (by decide) (token_spaces hnil hW hhead)⟩

/-- With white space in the gap the tokens before it are the same, and those behind it are the same at
later offsets. White space right behind the gap goes on with it, and starts where it does. -/
theorem Gap.exists_run (g : Gap n before after pre post) (hW : Blank W) :
    ∃ s f, Parse.Spaces s ∧
      Lexer.run ⟨n, pre ++ (W ++ post), false⟩ =
        (before ++ (s ++ after.map (Token.move f))).map .ok ∧
      (∀ m < n + byteSize pre, f m = m) ∧ (∀ m > n + byteSize pre, f m = byteSize W + m) ∧
      (f (n + byteSize pre) = byteSize W + (n + byteSize pre) ∨
        ∃ w ts, after = w :: ts ∧ w.kind = .whitespace) := by
  obtain ⟨W₁, W₂, rfl, hlex⟩ := g.lexes W hW
  have hspaces : ∀ c ∈ W₂, isSpace c := fun c hc => hW.2 c (List.mem_append_right _ hc)
  rw [Lexes, List.append_assoc, ← List.append_assoc W₁, byteSize_append, ← Nat.add_assoc] at hlex
  generalize hk : n + byteSize pre = k at hlex ⊢
  have hrun := g.run
  rw [hk] at hrun
  by_cases hmerge : W₂ = [] ∨ ∀ c ∈ post.head?, ¬isSpace c
  · obtain ⟨s, hs, hblank⟩ := Lexes.exists_spaces (k := k + byteSize W₁) hspaces hmerge
    have hafter : after.map (Token.move fun m => if m < k then m else byteSize (W₁ ++ W₂) + m) =
        after.map (Token.move (byteSize (W₁ ++ W₂) + ·)) := by
      refine List.map_congr_left fun t ht => ?_
      obtain ⟨xs, -, -, hpos⟩ := run_placed hrun t ht
      have hle : ¬t.position < k := by
        dsimp only at hpos
        omega
      rw [Token.move, if_neg hle]
      rfl
    refine ⟨s, fun m => if m < k then m else byteSize (W₁ ++ W₂) + m, hs, ?_, fun m hm => if_pos hm,
      fun m hm => if_neg (by omega), .inl (if_neg (by omega))⟩
    rw [hlex, hblank, Nat.add_assoc, ← byteSize_append, run_later hrun, hafter]
    simp only [List.map_append]
  · obtain ⟨hne, hhead⟩ := not_or.1 hmerge
    have hsplit := List.takeWhile_append_dropWhile (p := isSpace) (l := post)
    have hsp : ∀ c ∈ post.takeWhile isSpace, isSpace c := fun c hc => List.mem_takeWhile_imp hc
    have hrest : ∀ c ∈ (post.dropWhile isSpace).head?, ¬isSpace c :=
      head?_of_prefix_dropWhile (List.prefix_refl _)
    generalize post.takeWhile isSpace = sp at hsplit hsp
    generalize post.dropWhile isSpace = rest at hsplit hrest
    subst hsplit
    have hnil : sp ≠ [] := by
      rintro rfl
      exact hhead hrest
    have hfirst : Lexes k sp [⟨.whitespace, " ", k⟩] rest :=
      .token (by decide) (token_spaces hnil hsp hrest)
    have hjoined : Lexes (k + byteSize W₁) (W₂ ++ sp) [⟨.whitespace, " ", k + byteSize W₁⟩] rest :=
      .token (by decide) (token_spaces (by simp [hne])
        (fun c hc => (List.mem_append.1 hc).elim (hspaces c) (hsp c)) hrest)
    rw [Lexes, hrun] at hfirst
    obtain ⟨w, ts, rfl, hw, hts⟩ := List.map_eq_cons_iff.1 hfirst
    obtain rfl := Except.ok.inj hw
    have hlater : ∀ t ∈ ts, k < t.position := (List.pairwise_cons.1 (run_increasing hrun)).1
    let f (m : Nat) : Nat := if m < k then m else
      if m = k then k + byteSize W₁ else byteSize (W₁ ++ W₂) + m
    have hafter : ts.map (Token.move f) = ts.map (Token.move (byteSize (W₁ ++ W₂) + ·)) := by
      refine List.map_congr_left fun t ht => ?_
      have hlt := hlater t ht
      simp only [Token.move, f, if_neg (show ¬t.position < k by omega),
        if_neg (show t.position ≠ k by omega)]
    have hall : (⟨.whitespace, " ", k⟩ :: ts).map (Token.move f) =
        ⟨.whitespace, " ", k + byteSize W₁⟩ :: ts.map (Token.move (byteSize (W₁ ++ W₂) + ·)) := by
      rw [List.map_cons, hafter]
      simp [Token.move, f]
    refine ⟨[], f, .nil, ?_, fun m hm => if_pos hm, fun m hm => ?_, .inr ⟨_, ts, rfl, rfl⟩⟩
    · have hsize : k + byteSize W₁ + byteSize (W₂ ++ sp) =
          k + byteSize sp + byteSize (W₁ ++ W₂) := by simp only [byteSize_append]; omega
      rw [hlex, ← List.append_assoc, hjoined, hsize, run_later hts.symm, hall]
      simp only [List.map_append, List.map_cons, List.nil_append, List.map_nil, List.cons_append]
    · simp only [f, if_neg (show ¬m < k by omega), if_neg (show m ≠ k by omega)]

end
end CssSelector
