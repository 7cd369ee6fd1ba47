import Mathlib.Data.List.Chain
import RuleLang.Proofs.Places

/-!
Tokens are spaced freely. Characters that make a token when they are read alone make the same token
in every text in which they stand, if a gap or a mark keeps them apart from their neighbours. So a
text can be put together from lexemes and gaps, and its tokens are those of the lexemes, each in the
place where it was put.
-/
namespace RuleLang

open Alphabet Lexer

/-- Characters that are read alone as one token, which starts and ends with them. -/
structure IsLexeme (x : List Char) (y : Lexeme) : Prop where
  alone : tokenize x = .ok [⟨y, .start⟩]
  whole : ∃ c, readToken (.ofChars x) = .ok (some ⟨y, .start⟩) c ∧ c.rest = []

theorem Position.eq_nil_of_afterAll {p : Position} {cs : List Char} (h : p.afterAll cs = p) :
    cs = [] := by
  cases cs with
  | nil => rfl
  | cons c cs =>
    have hbefore := p.before_afterAll c cs
    rw [h] at hbefore
    unfold Before at hbefore
    omega

theorem separates_nil : Separates [] := by
  simp [Separates]

theorem Spelling.isLexeme {x : List Char} {y : Lexeme} (h : Spelling x y) : IsLexeme x y := by
  have hends : y.Ends x [] := separates_nil.ends x y
  constructor
  · have hcut : Munches .start ([] ++ x ++ []) [⟨y, .start⟩] _ [] := .cons .nil h hends (.nil _ _)
    rw [List.nil_append, List.append_nil] at hcut
    exact hcut.tokenized (.whole .nil)
  · have hx : (Cursor.ofChars x).rest = [] ++ x ++ [] := by simp [Cursor.ofChars]
    exact ⟨_, readToken_spelling hx .nil h hends, rest_advance hx⟩

theorem isLexeme_iff {x : List Char} {y : Lexeme} : IsLexeme x y ↔ Spelling x y := by
  refine ⟨fun h => ?_, Spelling.isLexeme⟩
  obtain ⟨c, hread, hend⟩ := h.whole
  generalize hr : some (⟨y, .start⟩ : Token) = t at hread
  cases nextToken_iff.1 hread with
  | final => cases hr
  | @token gap x' behind y' hc _ hx _ =>
    obtain ⟨rfl, hstart⟩ := Token.mk.inj (Option.some.inj hr)
    obtain rfl := Position.eq_nil_of_afterAll hstart.symm
    obtain rfl : behind = [] := (rest_advance hc).symm.trans hend
    obtain rfl : x = x' := by simpa [Cursor.ofChars] using hc
    exact hx

/-- The lexemes that nothing behind them goes on with, and that go on with nothing before them. -/
def Lexeme.StandsApart : Lexeme → Prop
  | string _ | punctuation _ => True
  | _ => False

theorem Lexeme.StandsApart.ends {y : Lexeme} (h : y.StandsApart) (x behind : List Char) :
    y.Ends x behind := by
  cases y with
  | string | punctuation => trivial
  | _ => cases h

def partingMarks : List Char := commentMark :: quote :: (blanks ++ punctuationMarks)

theorem separates_cons {c : Char} (hc : c ∈ partingMarks) (cs : List Char) :
    Separates (c :: cs) := by
  have hall : partingMarks.all fun c => !isDigit c && c != point && !isIdentifierChar c &&
      !isOperatorChar c := by decide
  have hc := List.all_eq_true.1 hall c hc
  intro d hd
  obtain rfl := Option.some.inj hd
  simpa [and_assoc] using hc

theorem separates_of_gap {gap : List Char} (hg : Gap gap) (hne : gap ≠ []) (more : List Char) :
    Separates (gap ++ more) := by
  cases hg with
  | nil => exact absurd rfl hne
  | blank hb =>
    refine separates_cons ?_ _
    simp only [partingMarks, List.mem_cons, List.mem_append]
    exact .inr (.inr (.inl (of_decide_eq_true hb)))
  | comment => exact separates_cons List.mem_cons_self _

theorem separates_of_finalGap {gap : List Char} (hg : FinalGap gap) : Separates gap := by
  have hwhole {gap : List Char} (hg : Gap gap) (more : List Char) (hmore : Separates more) :
      Separates (gap ++ more) := by
    by_cases hne : gap = []
    · rwa [hne]
    · exact separates_of_gap hg hne more
  cases hg with
  | whole hg =>
    rw [← List.append_nil gap]
    exact hwhole hg [] separates_nil
  | cutOff hg => exact hwhole hg _ (separates_cons List.mem_cons_self _)

theorem Spelling.separates {x : List Char} {y : Lexeme} (hx : Spelling x y) (hy : y.StandsApart)
    (more : List Char) : Separates (x ++ more) := by
  cases hx with
  | string => exact separates_cons (List.mem_cons_of_mem _ List.mem_cons_self) _
  | punctuation hc =>
    refine separates_cons ?_ _
    simp only [partingMarks, List.mem_cons, List.mem_append]
    exact .inr (.inr (.inr (of_decide_eq_true hc)))
  | _ => cases hy

/-- A lexeme, with its characters and the gap before it. -/
structure Spaced where
  gap : List Char
  chars : List Char
  lexeme : Lexeme

namespace Spaced

def text (pieces : List Spaced) (last : List Char) : List Char :=
  pieces.flatMap (fun s => s.gap ++ s.chars) ++ last

/-- Without a gap between them, one of two neighbours is a string or a mark. -/
def Apart (s t : Spaced) : Prop := t.gap = [] → s.lexeme.StandsApart ∨ t.lexeme.StandsApart

def tokens (p : Position) : List Spaced → List Token
  | [] => []
  | s :: rest => ⟨s.lexeme, p.afterAll s.gap⟩ :: tokens (p.afterAll (s.gap ++ s.chars)) rest

variable {s : Spaced} {pieces : List Spaced} {last : List Char}

theorem text_cons (s : Spaced) (pieces : List Spaced) (last : List Char) :
    text (s :: pieces) last = s.gap ++ s.chars ++ text pieces last := by
  simp [text]

theorem lexemes_tokens (p : Position) (pieces : List Spaced) :
    (tokens p pieces).map (·.lexeme) = pieces.map (·.lexeme) := by
  induction pieces generalizing p with
  | nil => rfl
  | cons s pieces ih => rw [tokens, List.map_cons, List.map_cons, ih]

theorem tokens_append (p : Position) (before behind : List Spaced) :
    tokens p (before ++ behind) =
      tokens p before ++ tokens (p.afterAll (text before [])) behind := by
  induction before generalizing p with
  | nil => rfl
  | cons s before ih =>
    rw [List.cons_append, tokens, ih, tokens, List.cons_append, text_cons,
      Position.afterAll_append _ _ (text before [])]

theorem getElem?_tokens (p : Position) (before behind : List Spaced) (s : Spaced) :
    (tokens p (before ++ s :: behind))[before.length]? =
      some ⟨s.lexeme, p.afterAll (text before s.gap)⟩ := by
  have hlength : (tokens p before).length = before.length := by
    simpa using congrArg List.length (lexemes_tokens p before)
  have htext : text before s.gap = text before [] ++ s.gap := by simp [text]
  rw [tokens_append, List.getElem?_append_right (Nat.le_of_eq hlength), hlength, Nat.sub_self,
    tokens, List.getElem?_cons_zero, htext, Position.afterAll_append]

theorem ends_text (hx : ∀ t ∈ pieces, Spelling t.chars t.lexeme) (hg : ∀ t ∈ pieces, Gap t.gap)
    (hlast : FinalGap last) (hapart : (s :: pieces).IsChain Apart) :
    s.lexeme.Ends s.chars (text pieces last) := by
  cases pieces with
  | nil => exact (separates_of_finalGap hlast).ends _ _
  | cons t pieces =>
    rw [text_cons]
    by_cases hgap : t.gap = []
    · rcases (List.isChain_cons_cons.1 hapart).1 hgap with hs | ht
      · exact hs.ends _ _
      · rw [hgap, List.nil_append]
        exact ((hx t List.mem_cons_self).separates ht _).ends _ _
    · rw [List.append_assoc]
      exact (separates_of_gap (hg t List.mem_cons_self) hgap _).ends _ _

theorem munches (hx : ∀ s ∈ pieces, Spelling s.chars s.lexeme) (hg : ∀ s ∈ pieces, Gap s.gap)
    (hlast : FinalGap last) (hapart : pieces.IsChain Apart) (p : Position) :
    Munches p (text pieces last) (tokens p pieces) (p.afterAll (text pieces [])) last := by
  induction pieces generalizing p with
  | nil => exact .nil p last
  | cons s pieces ih =>
    obtain ⟨hxs, hx⟩ := List.forall_mem_cons.1 hx
    obtain ⟨hgs, hg⟩ := List.forall_mem_cons.1 hg
    have hends := ends_text hx hg hlast hapart
    have hmore := ih hx hg hapart.tail (p.afterAll (s.gap ++ s.chars))
    rw [text_cons, text_cons, Position.afterAll_append]
    exact .cons hgs hxs hends hmore

end Spaced

/-- Tokens are spaced freely. Of lexemes with gaps around them, that may be empty beside a string or
a mark, tokenizing finds each, in the order and in the exact place in which it was put. -/
theorem tokenize_spaced {pieces : List Spaced} {last : List Char}
    (hlexemes : ∀ s ∈ pieces, IsLexeme s.chars s.lexeme) (hgaps : ∀ s ∈ pieces, Gap s.gap)
    (hlast : FinalGap last) (hapart : pieces.IsChain Spaced.Apart) :
    ∃ ts, tokenize (Spaced.text pieces last) = .ok ts ∧ ts.length = pieces.length ∧
      ∀ before s behind, pieces = before ++ s :: behind → ∃ t, ts[before.length]? = some t ∧
        t.lexeme = s.lexeme ∧
        (Excerpt.whole (Spaced.text pieces last)).Place (Spaced.text before s.gap).length
          t.position := by
  have hspelled s (hs : s ∈ pieces) := isLexeme_iff.1 (hlexemes s hs)
  have hcut := Spaced.munches hspelled hgaps hlast hapart .start
  refine ⟨Spaced.tokens .start pieces, hcut.tokenized hlast, ?_, fun before s behind h => ?_⟩
  · simpa using congrArg List.length (Spaced.lexemes_tokens .start pieces)
  · subst h
    refine ⟨_, Spaced.getElem?_tokens .start before behind s, rfl, ?_⟩
    have hsplit : Spaced.text (before ++ s :: behind) last =
        Spaced.text before s.gap ++ (s.chars ++ Spaced.text behind last) := by
      simp [Spaced.text]
    exact Excerpt.place_split hsplit

theorem tokenize_spaced_comment :
    let pieces : List Spaced := [⟨[' '], ['-'], .operator "-"⟩,
      ⟨[], ['"', '\n', '"'], .string "\n"⟩, ⟨['#', '!', '\n'], ['x'], .identifier "x"⟩]
    pieces.IsChain Spaced.Apart ∧ FinalGap ['#'] ∧
      ∃ ts t, tokenize [' ', '-', '"', '\n', '"', '#', '!', '\n', 'x', '#'] = .ok ts ∧
        ts.length = 3 ∧ ts[2]? = some t ∧ t = ⟨.identifier "x", ⟨3, 0⟩⟩ := by
  intro pieces
  have hlexemes : ∀ s ∈ pieces, IsLexeme s.chars s.lexeme := by
    simp only [pieces, List.forall_mem_cons]
    exact ⟨(Spelling.operator (by decide) (by decide)).isLexeme,
      (Spelling.string (.plain (by decide) (by decide) .nil)).isLexeme,
      (Spelling.identifier (.run (by decide) (by decide)) (by decide)).isLexeme, nofun⟩
  have hgaps : ∀ s ∈ pieces, Gap s.gap := by
    simp only [pieces, List.forall_mem_cons]
    exact ⟨.blank (by decide) .nil, .nil, .comment (by decide : lineFeed ∉ ['!']) .nil, nofun⟩
  have hlast : FinalGap ['#'] := .cutOff .nil List.not_mem_nil
  have hapart : pieces.IsChain Spaced.Apart := by
    simp [pieces, Spaced.Apart, Lexeme.StandsApart]
  obtain ⟨ts, hts, hlength, hplaced⟩ := tokenize_spaced hlexemes hgaps hlast hapart
  obtain ⟨t, ht, hlexeme, hplace⟩ := hplaced [_, _] _ [] rfl
  have hline : t.position.line = 3 := hplace.line
  have hcolumn : t.position.column = 0 :=
    hplace.later (by decide : 0 ≤ 7) (by decide) rfl (by decide)
  refine ⟨hapart, hlast, ts, t, hts, hlength, ht, ?_⟩
  obtain ⟨x, line, column⟩ := t
  obtain rfl : line = 3 := hline
  obtain rfl : column = 0 := hcolumn
  rw [show x = _ from hlexeme]

end RuleLang
