import CssSelector.Proofs.Tiling
import CssSelector.Proofs.Warnings

set_option autoImplicit false

namespace CssSelector

open Text

def comment (body : String) : String := "/*" ++ body ++ "*/"

theorem toList_comment (body : String) :
    (comment body).toList = '/' :: '*' :: (body.toList ++ ['*', '/']) := by
  simp [comment]

/-- The text with a piece put in before the byte `n`, unless that is inside a character. -/
def insertAt? (text : String) (n : Nat) (piece : String) : Option String :=
  (splitAt? n text.toList).map fun (xs, ys) => String.ofList (xs ++ (piece.toList ++ ys))

/-- Where the byte `m` is after `size` bytes were put in before the byte `n`. -/
def shifted (n size m : Nat) : Nat := if m < n then m else size + m

theorem shifted_of_lt {n size m : Nat} (h : m < n) : shifted n size m = m := if_pos h

theorem shifted_of_le {n size m : Nat} (h : n ≤ m) : shifted n size m = size + m :=
  if_neg (Nat.not_lt.2 h)

def unshifted (n size m : Nat) : Nat := if m < n then m else m - size

theorem unshifted_shifted (n size m : Nat) : unshifted n size (shifted n size m) = m := by
  unfold shifted unshifted
  split_ifs <;> omega

def Reading.move (f : Nat → Nat) (r : Reading) : Reading :=
  ⟨r.selector, r.warnings.map (Warning.move f)⟩

namespace Scan

theorem commentBody_close {body : List Char} (h : ¬['*', '/'] <:+: body) (us : List Char) :
    commentBody (body ++ '*' :: '/' :: us) = ⟨(), body ++ ['*', '/'], us⟩ ∧
      closesComment (body ++ '*' :: '/' :: us) := by
  induction body with
  | nil => exact ⟨rfl, rfl⟩
  | cons c cs ih =>
    have hno : ∀ ds, c = '*' → cs ++ '*' :: '/' :: us = '/' :: ds → False := by
      rintro ds rfl hds
      cases cs with
      | nil => cases hds
      | cons d cs =>
        obtain ⟨rfl, -⟩ := List.cons.inj hds
        exact h ⟨[], cs, rfl⟩
    obtain ⟨hbody, hcloses⟩ := ih fun hi => h (hi.trans (List.suffix_cons c cs).isInfix)
    rw [List.cons_append, commentBody.eq_2 _ _ hno, closesComment.eq_2 _ _ hno, hbody]
    exact ⟨rfl, hcloses⟩

theorem comments_comment {body : String} (h : ¬"*/".toList <:+: body.toList) :
    comments (comment body).toList = ⟨(), (comment body).toList, []⟩ ∧
      ¬opensComment (comment body).toList := by
  obtain ⟨hbody, hcloses⟩ := commentBody_close h []
  rw [toList_comment, comments, opensComment, hbody, hcloses]
  exact ⟨by simp [comments, after], by simp [opensComment]⟩

end Scan

section
variable {text body : String} {ts before after : List Token} {t : Token}

theorem map_move_shifted (h : (before ++ t :: after).Pairwise fun t u => t.position < u.position)
    (size : Nat) : (before ++ t :: after).map (Token.move (shifted t.position size)) =
      before ++ (t :: after).map (Token.move (size + ·)) := by
  obtain ⟨-, hafter, hbefore⟩ := List.pairwise_append.1 h
  rw [List.map_append]
  refine congrArg₂ (· ++ ·) ?_ (List.map_congr_left fun u hu => ?_)
  · refine (List.map_congr_left fun u hu => ?_).trans (List.map_id before)
    rw [Token.move, shifted_of_lt (hbefore u hu t List.mem_cons_self)]
    rfl
  · have hle : t.position ≤ u.position := by
      rcases List.mem_cons.1 hu with rfl | hu
      · exact Nat.le_refl _
      · exact ((List.pairwise_cons.1 hafter).1 u hu).le
    rw [Token.move, shifted_of_le hle]
    rfl

theorem tokenize_insert_comment (h : tokenize text = .ok ts) (hc : ¬endsInComment text) (ht : t ∈ ts)
    (hb : ¬"*/".toList <:+: body.toList) :
    ∃ text', insertAt? text t.position (comment body) = some text' ∧
      tokenize text' =
        .ok (ts.map (Token.move (shifted t.position (byteSize (comment body).toList)))) := by
  obtain ⟨before, after, rfl⟩ := List.append_of_mem ht
  obtain ⟨pre, post, hsource, hpos, hrun, hlex⟩ := exists_cut_of_tokenize before h
  obtain ⟨hcomments, hopen⟩ := Scan.comments_comment hb
  refine ⟨String.ofList (pre ++ ((comment body).toList ++ post)), ?_, ?_⟩
  · rw [insertAt?, hpos, hsource, splitAt?_append]
    rfl
  · generalize hk : (comment body).toList = k at *
    have hbreaks : Scan.Breaks (k ++ post) := by
      rw [← hk, toList_comment]
      exact Scan.breaks_cons (by decide) _
    have hcomment : Lexes (0 + byteSize pre) k [] post := .of_comments hopen (by rw [hcomments]) _
    have hall := (hlex _ hbreaks (.inr (.inr hc))).append hcomment
    have hmoved := Lexer.run_add (byteSize k) ⟨t.position, post, false⟩
    rw [hrun, List.map_map] at hmoved
    have hoffset : 0 + byteSize (pre ++ k) = byteSize k + t.position := by
      rw [hpos, byteSize_append]
      omega
    rw [Lexes, List.append_assoc, hoffset, hmoved, List.append_nil] at hall
    rw [map_move_shifted (tokenize_increasing h), tokenize, Lexer.ofString, String.toList_ofList, hall]
    have hitems : (t :: after).map (Lexer.moveItem (byteSize k + ·) ∘ Except.ok) =
        ((t :: after).map (Token.move (byteSize k + ·))).map Except.ok := by
      rw [List.map_map]
      rfl
    rw [hitems, ← List.map_append]
    exact mapM_map_ok _

end

namespace Parse

theorem KnownNames.move {d : Dialect} {f : Nat → Nat} {xs : List Token} (h : KnownNames d xs) :
    KnownNames d (xs.map (Token.move f)) := by
  rintro o t category ⟨as, bs, hxs⟩ ho ht
  obtain ⟨ys, bs', rfl, hys, -⟩ := List.map_eq_append_iff.1 hxs.symm
  obtain ⟨as', zs, rfl, -, hzs⟩ := List.map_eq_append_iff.1 hys
  obtain ⟨o', us, rfl, rfl, hus⟩ := List.map_eq_cons_iff.1 hzs
  obtain ⟨t', vs, rfl, rfl, hvs⟩ := List.map_eq_cons_iff.1 hus
  obtain rfl := List.map_eq_nil_iff.1 hvs
  exact h o' t' category ⟨as', bs', rfl⟩ ho ht

end Parse

namespace Dialect

open Parse

/-- A comment at a token of a text is invisible: the tokens are the same ones, those behind it at later
offsets, and so is the selector, and the warnings with their messages, under each dialect that knows
all names. -/
theorem comments_invisible {text body : String} {ts : List Token} {t : Token}
    (h : tokenize text = .ok ts) (hc : ¬endsInComment text) (ht : t ∈ ts)
    (hb : ¬"*/".toList <:+: body.toList) :
    let f := shifted t.position (byteSize (comment body).toList)
    ∃ text', insertAt? text t.position (comment body) = some text' ∧
      tokenize text' = .ok (ts.map (Token.move f)) ∧
      ∀ d, KnownNames d ts → ∀ r',
        d.parse text' = .ok r' ↔ ∃ r, d.parse text = .ok r ∧ r' = r.move f := by
  intro f
  obtain ⟨text', hinsert, htokens⟩ := tokenize_insert_comment h hc ht hb
  refine ⟨text', hinsert, htokens, fun d hd r' => ?_⟩
  have hknown : KnownNames d ts.dropLast := hd.mono (List.dropLast_prefix ts).isInfix
  -- known names leave no argument unread, so the source itself does not matter
  have hread (S : Selector) (ns : List Mention) :
      Reads ⟨d, text'.toList⟩ (ts.dropLast.map (Token.move f)) (.selector S) ns ↔
        ∃ ms, ns = ms.map (Mention.move f) ∧
          Reads ⟨d, text.toList⟩ ts.dropLast (.selector S) ms :=
    reads_move_iff (unshifted_shifted t.position _) (.inl ⟨hknown, trivial⟩)
      (.inl ⟨hknown.move, trivial⟩) fun _ _ => rfl
  constructor
  · intro h'
    obtain ⟨ts', ht', ns, hr, hpass⟩ := parse_eq_ok.1 h'
    cases htokens.symm.trans ht'
    rw [← List.map_dropLast, hread] at hr
    obtain ⟨ms, rfl, hr⟩ := hr
    obtain ⟨ws, hws, hpass⟩ := (passes_move_iff f).1 hpass
    refine ⟨⟨r'.selector, ws⟩, parse_eq_ok.2 ⟨ts, h, ms, hr, hpass⟩, ?_⟩
    rw [Reading.move, ← hws]
  · rintro ⟨r, hr, rfl⟩
    obtain ⟨ts', ht', ms, hr, hpass⟩ := parse_eq_ok.1 hr
    cases h.symm.trans ht'
    refine parse_eq_ok.2 ⟨_, htokens, ms.map (Mention.move f), ?_, hpass.move f⟩
    rw [← List.map_dropLast]
    exact (hread _ _).2 ⟨ms, rfl, hr⟩

theorem comment_before_argument :
    let known : NameMap Signature := .insert .empty "is" (.required .selector)
    let d : Dialect := ⟨known, .empty, .reject, .reject, {}, {}⟩
    let S : Selector := ⟨[⟨[.pseudo .pseudoClass "is" (some (.selector
      ⟨[⟨[.tagName "a", .combinator .child, .tagName "b"]⟩]⟩))]⟩]⟩
    d.parse ":is(a>b)" = .ok ⟨S, []⟩ ∧ ¬endsInComment ":is(a>b)" ∧
      ¬"*/".toList <:+: ")*".toList ∧ d.parse ":is/*)**/(a>b)" = .ok ⟨S, []⟩ := by
  intro known d S
  let ts : List Token := [⟨.colon, ":", 0⟩, ⟨.ident, "is", 1⟩, ⟨.leftParen, "(", 3⟩, ⟨.ident, "a", 4⟩,
    ⟨.combinator, ">", 5⟩, ⟨.ident, "b", 6⟩, ⟨.rightParen, ")", 7⟩, ⟨.endOfInput, "", 8⟩]
  have htokens : tokenize ":is(a>b)" = .ok ts := by cbv
  have hparse : d.parse ":is(a>b)" = .ok ⟨S, []⟩ := by cbv
  have hc : endsInComment ":is(a>b)" = false := by cbv
  have hb : ¬"*/".toList <:+: ")*".toList := by decide +kernel
  have hd : KnownNames d ts := by
    intro o t category hi ho _
    rcases List.infix_cons_iff.1 hi with hfirst | hi
    · obtain ⟨rfl, hname⟩ := List.cons_prefix_cons.1 hfirst
      obtain ⟨rfl, -⟩ := List.cons_prefix_cons.1 hname
      cases ho
      rfl
    · -- behind the first token there is no other colon
      have hall : ∀ o ∈ ts.tail, o.kind.itemStart? ≠ some (.pseudo category) := by
        simp [ts, Token.Kind.itemStart?]
      exact absurd ho (hall o (hi.subset List.mem_cons_self))
  obtain ⟨text', hinsert, -, hiff⟩ := comments_invisible htokens (by simp [hc])
    (show ⟨.leftParen, "(", 3⟩ ∈ ts by decide) hb
  have htext : insertAt? ":is(a>b)" 3 (comment ")*") = some ":is/*)**/(a>b)" := by cbv
  obtain rfl := Option.some.inj (htext.symm.trans hinsert)
  exact ⟨hparse, by simp [hc], hb, (hiff d hd _).2 ⟨_, hparse, rfl⟩⟩

end Dialect
end CssSelector
