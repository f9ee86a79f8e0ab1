import CssSelector.Proofs.Formula
import Mathlib.Data.List.TakeWhile

/-!
Blanks in formulas. How many blanks stand at a place of a formula, and which ones, makes no
difference to what it stands for (`Formula.read?_eq_of_alike`).
-/

set_option autoImplicit false

namespace CssSelector

namespace Text

/-- The same text but for runs of blanks, which are as many on both sides and in the same places. -/
inductive Alike : List Char → List Char → Prop
  | nil : Alike [] []
  | char {xs ys : List Char} (c : Char) : Alike xs ys → Alike (c :: xs) (c :: ys)
  | blanks {bs ds xs ys : List Char} : bs ≠ [] → ds ≠ [] → (∀ b ∈ bs, isBlank b) →
      (∀ d ∈ ds, isBlank d) → Alike xs ys → Alike (bs ++ xs) (ds ++ ys)

namespace Alike
variable {xs ys us vs : List Char}

theorem refl (xs : List Char) : Alike xs xs := by
  induction xs with
  | nil => exact .nil
  | cons x xs ih => exact .char x ih

theorem symm (h : Alike xs ys) : Alike ys xs := by
  induction h with
  | nil => exact .nil
  | char c _ ih => exact .char c ih
  | blanks hb hd hbs hds _ ih => exact .blanks hd hb hds hbs ih

theorem append (h : Alike xs ys) (k : Alike us vs) : Alike (xs ++ us) (ys ++ vs) := by
  induction h with
  | nil => exact k
  | char c _ ih => exact .char c ih
  | blanks hb hd hbs hds _ ih =>
    rw [List.append_assoc, List.append_assoc]
    exact .blanks hb hd hbs hds ih

theorem reverse (h : Alike xs ys) : Alike xs.reverse ys.reverse := by
  induction h with
  | nil => exact .nil
  | char c _ ih =>
    rw [List.reverse_cons, List.reverse_cons]
    exact ih.append (.refl [c])
  | @blanks bs ds xs ys hb hd hbs hds _ ih =>
    rw [List.reverse_append, List.reverse_append]
    refine ih.append ?_
    have h : Alike (bs.reverse ++ []) (ds.reverse ++ []) :=
      .blanks (by simpa using hb) (by simpa using hd) (by simpa using hbs) (by simpa using hds) .nil
    simpa using h

theorem map_toLower (h : Alike xs ys) : Alike (xs.map Char.toLower) (ys.map Char.toLower) := by
  induction h with
  | nil => exact .nil
  | char c _ ih => exact .char c.toLower ih
  | blanks hb hd hbs hds _ ih =>
    rw [List.map_append, List.map_append]
    refine .blanks (by simpa using hb) (by simpa using hd) ?_ ?_ ih
    · exact List.forall_mem_map.2 fun b h => (isBlank_toLower b).trans (hbs b h)
    · exact List.forall_mem_map.2 fun d h => (isBlank_toLower d).trans (hds d h)

theorem trimStart (h : Alike xs ys) : Alike (trimStart xs) (trimStart ys) := by
  induction h with
  | nil => exact .nil
  | @char xs ys c h ih =>
    unfold Text.trimStart at ih ⊢
    rw [List.dropWhile_cons, List.dropWhile_cons]
    split
    · exact ih
    · exact .char c h
  | blanks _ _ hbs hds _ ih =>
    unfold Text.trimStart at ih ⊢
    rw [List.dropWhile_append_of_pos hbs, List.dropWhile_append_of_pos hds]
    exact ih

theorem trim (h : Alike xs ys) : Alike (trim xs) (trim ys) := h.trimStart.reverse.trimStart.reverse

theorem eq_of_not_isBlank (h : Alike xs ys) (hx : ∀ x ∈ xs, ¬isBlank x) : ys = xs := by
  induction h with
  | nil => rfl
  | char c _ ih => rw [ih (List.forall_mem_cons.1 hx).2]
  | @blanks bs _ _ _ hb _ hbs =>
    obtain ⟨b, bs, rfl⟩ := List.exists_cons_of_ne_nil hb
    exact absurd (hbs b List.mem_cons_self) (hx b (by simp))

theorem eq_iff {ks : List Char} (h : Alike xs ys) (hk : ∀ x ∈ ks, ¬isBlank x) :
    xs = ks ↔ ys = ks :=
  ⟨fun hx => hx ▸ h.eq_of_not_isBlank (hx ▸ hk), fun hy => hy ▸ h.symm.eq_of_not_isBlank (hy ▸ hk)⟩

theorem exists_cons {c : Char} (h : Alike (c :: xs) ys) (hc : ¬isBlank c) :
    ∃ zs, ys = c :: zs ∧ Alike xs zs := by
  generalize hw : c :: xs = ws at h
  cases h with
  | nil => contradiction
  | char d h =>
    cases hw
    exact ⟨_, rfl, h⟩
  | @blanks bs _ _ _ hb _ hbs =>
    obtain ⟨b, bs, rfl⟩ := List.exists_cons_of_ne_nil hb
    cases hw
    exact absurd (hbs c List.mem_cons_self) hc

theorem span (h : Alike xs ys) {p : Char → Bool} (hp : ∀ c, isBlank c → p c) :
    Alike (xs.takeWhile p) (ys.takeWhile p) ∧ Alike (xs.dropWhile p) (ys.dropWhile p) := by
  induction h with
  | nil => exact ⟨.nil, .nil⟩
  | @char xs ys c h ih =>
    by_cases hc : p c
    · simp only [List.takeWhile_cons, List.dropWhile_cons, hc, if_true]
      exact ⟨.char c ih.1, ih.2⟩
    · simp only [List.takeWhile_cons, List.dropWhile_cons, hc]
      exact ⟨.nil, .char c h⟩
  | blanks hb hd hbs hds _ ih =>
    have hbp := fun b h => hp b (hbs b h)
    have hdp := fun d h => hp d (hds d h)
    rw [List.takeWhile_append_of_pos hbp, List.takeWhile_append_of_pos hdp,
      List.dropWhile_append_of_pos hbp, List.dropWhile_append_of_pos hdp]
    exact ⟨.blanks hb hd hbs hds ih.1, ih.2⟩

theorem option_eq {α : Type} {f : List Char → Option α}
    (hf : ∀ xs a, f xs = some a → ∀ x ∈ xs, ¬isBlank x) (h : Alike xs ys) : f xs = f ys := by
  cases hx : f xs with
  | some a => rw [h.eq_of_not_isBlank (hf xs a hx), hx]
  | none =>
    cases hy : f ys with
    | none => rfl
    | some a =>
      rw [h.symm.eq_of_not_isBlank (hf ys a hy), hy] at hx
      contradiction

end Alike

/-! Trimming twice, and trimming what is only blanks longer. -/

theorem trimStart_of_head {cs : List Char} (h : ∀ c ∈ cs.head?, ¬isBlank c) :
    trimStart cs = cs := by
  cases cs with
  | nil => rfl
  | cons c cs => exact List.dropWhile_cons_of_neg (h c rfl)

theorem head?_trimStart (cs : List Char) : ∀ c ∈ (trimStart cs).head?, ¬isBlank c := by
  intro c hc
  have h := List.head?_dropWhile_not isBlank cs
  rw [show cs.dropWhile isBlank = trimStart cs from rfl, Option.mem_def.1 hc] at h
  simpa using h

theorem trimEnd_prefix (cs : List Char) : trimEnd cs <+: cs := by
  have h := List.reverse_prefix.2 (List.dropWhile_suffix isBlank (l := cs.reverse))
  rwa [List.reverse_reverse] at h

theorem head?_trim (cs : List Char) : ∀ c ∈ (trim cs).head?, ¬isBlank c := by
  intro c hc
  obtain ⟨us, hus⟩ := trimEnd_prefix (trimStart cs)
  refine head?_trimStart cs c ?_
  have hor : (trimStart cs).head? = (trim cs).head?.or us.head? := by
    rw [← hus, List.head?_append]
    rfl
  rw [hor, Option.mem_def.1 hc]
  rfl

theorem getLast?_trim (cs : List Char) : ∀ c ∈ (trim cs).getLast?, ¬isBlank c := by
  rw [trim, trimEnd, List.getLast?_reverse]
  exact head?_trimStart _

theorem exists_trim (cs : List Char) : ∃ bs ds, cs = bs ++ (trim cs ++ ds) ∧
    (∀ b ∈ bs, isBlank b) ∧ ∀ d ∈ ds, isBlank d := by
  refine ⟨cs.takeWhile isBlank, ((trimStart cs).reverse.takeWhile isBlank).reverse, ?_,
    fun _ hb => List.mem_takeWhile_imp hb,
    fun _ hd => List.mem_takeWhile_imp (List.mem_reverse.1 hd)⟩
  have hend : trim cs ++ ((trimStart cs).reverse.takeWhile isBlank).reverse = trimStart cs := by
    conv => lhs; lhs; rw [trim, trimEnd, trimStart]
    rw [← List.reverse_append, List.takeWhile_append_dropWhile, List.reverse_reverse]
  rw [hend, trimStart, List.takeWhile_append_dropWhile]

theorem trim_trim (cs : List Char) : trim (trim cs) = trim cs := by
  have hend : trimStart (trim cs).reverse = (trim cs).reverse := by
    refine trimStart_of_head fun c hc => getLast?_trim cs c ?_
    rwa [List.head?_reverse] at hc
  conv => lhs; rw [trim, trimStart_of_head (head?_trim cs), trimEnd, hend, List.reverse_reverse]

theorem trim_map_toLower (cs : List Char) :
    trim (cs.map Char.toLower) = (trim cs).map Char.toLower := by
  have hblank : isBlank ∘ Char.toLower = isBlank := funext isBlank_toLower
  have hstart (xs : List Char) : trimStart (xs.map Char.toLower) = (trimStart xs).map Char.toLower := by
    rw [trimStart, List.dropWhile_map, hblank, trimStart]
  rw [trim, trimEnd, hstart, ← List.map_reverse, hstart, ← List.map_reverse]
  rfl

theorem trim_append_blanks (cs : List Char) {bs : List Char} (h : ∀ b ∈ bs, isBlank b) :
    trim (cs ++ bs) = trim cs := by
  have hend (xs : List Char) : trimEnd (xs ++ bs) = trimEnd xs := by
    unfold trimEnd trimStart
    rw [List.reverse_append, List.dropWhile_append_of_pos (by simpa using h)]
  unfold trim
  by_cases hcs : trimStart cs = []
  · have hall : ∀ c ∈ cs ++ bs, isBlank c := by
      have hc := List.dropWhile_eq_nil_iff.1 hcs
      exact fun c hm => (List.mem_append.1 hm).elim (hc c) (h c)
    rw [hcs, show trimStart (cs ++ bs) = [] from List.dropWhile_eq_nil_iff.2 hall]
  · have happ : trimStart (cs ++ bs) = trimStart cs ++ bs := by
      unfold trimStart at hcs ⊢
      rw [List.dropWhile_append, if_neg (by simpa using hcs)]
    rw [happ, hend]

end Text

open Text

namespace Formula

theorem not_isBlank_of_isLetter {c : Char} (h : isLetter c) : ¬isBlank c := by
  rcases Bool.or_eq_true_iff.1 h with hd | hm
  · simp only [Char.isDigit, Bool.and_eq_true, decide_eq_true_eq, UInt32.le_iff_toNat_le,
      Char.reduceVal, UInt32.reduceToNat] at hd
    have hc : c.toNat = c.val.toNat := rfl
    simp [isBlank, blankRanges]
    omega
  · have hall : ∀ x ∈ ['+', '-', 'n', 'o', 'd', 'e', 'v'], ¬isBlank x :=
      List.all_iff_forall_prop.1 (by decide)
    exact hall c (List.contains_iff_mem.1 hm)

theorem integer?_eq_of_alike {xs ys : List Char} (h : Alike xs ys) : integer? xs = integer? ys :=
  h.option_eq fun _ _ hz x hx => not_isBlank_of_isLetter (isLetter_of_integer? hz x hx)

theorem coefficient?_eq_of_alike {xs ys : List Char} (h : Alike xs ys) :
    coefficient? xs = coefficient? ys :=
  h.option_eq fun _ _ hz x hx => not_isBlank_of_isLetter (isLetter_of_coefficient? hz x hx)

theorem natural?_eq_of_alike {xs ys : List Char} (h : Alike xs ys) : natural? xs = natural? ys :=
  h.option_eq fun _ _ hn x hx =>
    not_isBlank_of_isLetter (isLetter_of_isDigit (digits_of_natural? hn x hx))

theorem constant?_eq_of_alike {xs ys : List Char} (h : Alike xs ys) :
    constant? xs = constant? ys := by
  have ht := h.trimStart
  unfold constant?
  cases hx : trimStart xs with
  | nil =>
    rw [hx] at ht
    rw [ht.eq_of_not_isBlank (by simp)]
  | cons c cs =>
    have hc : ¬isBlank c := head?_trimStart xs c (by simp [hx])
    rw [hx] at ht
    obtain ⟨ds, hy, hcs⟩ := ht.exists_cons hc
    have hn := natural?_eq_of_alike hcs.trimStart
    rw [hy]
    by_cases hplus : c = '+'
    · simp only [hplus, hn]
    by_cases hminus : c = '-'
    · simp only [hminus, hn]
    · simp [hplus, hminus]

/-- Runs of blanks may be longer or shorter, and of other blanks. -/
theorem read?_eq_of_alike {xs ys : List Char} (h : Alike xs ys) : read? xs = read? ys := by
  have ht := h.trim.map_toLower
  unfold read?
  dsimp only
  generalize (trim xs).map Char.toLower = us at ht ⊢
  generalize (trim ys).map Char.toLower = vs at ht ⊢
  have hodd : us = ['o', 'd', 'd'] ↔ vs = ['o', 'd', 'd'] :=
    ht.eq_iff (List.all_iff_forall_prop.1 (by decide))
  have heven : us = ['e', 'v', 'e', 'n'] ↔ vs = ['e', 'v', 'e', 'n'] :=
    ht.eq_iff (List.all_iff_forall_prop.1 (by decide))
  have hp (c : Char) (hc : isBlank c) : decide (c ≠ 'n') := by
    refine decide_eq_true fun hn => ?_
    subst hn
    contradiction
  obtain ⟨htake, hdrop⟩ := ht.span hp
  simp only [hodd, heven]
  split
  · rfl
  split
  · rfl
  rw [coefficient?_eq_of_alike htake]
  cases hu : us.dropWhile fun c => decide (c ≠ 'n') with
  | nil =>
    rw [hu] at hdrop
    rw [hdrop.eq_of_not_isBlank (by simp), integer?_eq_of_alike ht]
  | cons c cs =>
    have hc : ¬isBlank c := by
      have hn := List.head?_dropWhile_not (fun c => decide (c ≠ 'n')) us
      rw [hu] at hn
      have hc : c = 'n' := by simpa using hn
      rw [hc]
      decide
    rw [hu] at hdrop
    obtain ⟨ds, hv, hcs⟩ := hdrop.exists_cons hc
    rw [hv]
    simp only [constant?_eq_of_alike hcs]

theorem read?_trim (cs : List Char) : read? (trim cs) = read? cs := by
  rw [read?, trim_trim, ← read?]

theorem read?_eq_of_toLower {cs ds : List Char} (h : cs.map Char.toLower = ds.map Char.toLower) :
    read? cs = read? ds := by
  rw [read?, read?, ← trim_map_toLower, ← trim_map_toLower, h]

end Formula

end CssSelector
