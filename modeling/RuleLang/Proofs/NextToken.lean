import RuleLang.Proofs.Decomposition
import RuleLang.Proofs.Lookahead

/-!
The next token of a text. Reading a token has four ways to end, and the text that is left decides
which: nothing but a gap, a lexeme behind a gap, a character that starts nothing, or a quote that
nothing closes. Reading tokens one after another passes them in the order of the scan, so where a
cursor stands among the tokens shows in what is left.
-/
namespace RuleLang

open Alphabet Lexer

/-- How reading a token ends, with the cursor that it leaves. -/
inductive NextToken (c : Cursor) : EStateM.Result Failure Cursor (Option Token) → Prop
  | final : FinalGap c.rest → NextToken c (.ok none (c.advance c.rest.length))
  | token {gap x behind : List Char} {y : Lexeme} : c.rest = gap ++ x ++ behind → Gap gap →
    Spelling x y → y.Ends x behind →
    NextToken c (.ok (some ⟨y, c.position.afterAll gap⟩) (c.advance (gap ++ x).length))
  | illegal {gap behind : List Char} {first : Char} : c.rest = gap ++ first :: behind → Gap gap →
    Breaks (first :: behind) (.illegalCharacter first) →
    NextToken c (.error (.malformed ⟨c.position.afterAll gap, .illegalCharacter first⟩)
      (c.advance gap.length))
  | unterminated {gap behind : List Char} : c.rest = gap ++ quote :: behind → Gap gap →
    Breaks (quote :: behind) .unterminatedString →
    NextToken c (.error (.malformed ⟨c.position.afterAll gap, .unterminatedString⟩)
      (c.advance c.rest.length))

namespace Lexer

theorem readLexeme_unterminated {c : Cursor} {behind : List Char}
    (h : Breaks (quote :: behind) .unterminatedString) (hc : c.rest = quote :: behind)
    (p : Position) : readLexeme p quote c =
      .error (.malformed ⟨p, .unterminatedString⟩) (c.advance c.rest.length) := by
  have hrest : (c.advance 1).rest = behind := by simp [Cursor.advance, hc]
  have hnone : stringRun? false behind = none := by
    cases h with
    | unterminated hno =>
      cases hs : stringRun? false behind with
      | none => rfl
      | some r =>
        obtain ⟨raw, rest, rfl, hraw⟩ := quoted_of_stringRun? hs
        exact absurd rfl (hno raw _ rest hraw)
  rw [readLexeme, if_pos rfl, skip_bind, map_run, readString_eq, hrest, hnone, hc,
    List.length_cons]
  simp only [Cursor.advance_advance, Nat.add_comm 1]

theorem readLexeme_illegalCharacter {first : Char} {behind : List Char}
    (h : Breaks (first :: behind) (.illegalCharacter first)) (p : Position) (c : Cursor) :
    readLexeme p first c = .error (.malformed ⟨p, .illegalCharacter first⟩) c := by
  cases h with
  | illegal _ _ hno =>
    rw [readLexeme_illegal]
    · rfl
    · intro hs
      obtain ⟨x, y, hx⟩ := spelling_of_start hs
      exact hno x y hx

theorem readToken_behind {c : Cursor} {gap cs : List Char} (hc : c.rest = gap ++ cs)
    (hg : Gap gap) : readToken c = readToken (c.advance gap.length) := by
  have hskip : (c.advance gap.length).advance (gapLength false (c.advance gap.length).rest) =
      c.advance (gapLength false c.rest) := by
    rw [rest_advance hc, Cursor.advance_advance, hc, gapLength_append hg]
  have hr := readToken_eq (c.advance gap.length)
  dsimp only at hr
  rw [hskip] at hr
  exact (readToken_eq c).trans hr.symm

end Lexer

theorem NextToken.readToken {c : Cursor} {r : EStateM.Result Failure Cursor (Option Token)}
    (h : NextToken c r) : readToken c = r := by
  cases h with
  | final hf => exact readToken_final hf
  | token hc hg hx he => exact readToken_spelling hc hg hx he
  | @illegal gap _ _ hc hg hb =>
    have hread := readLexeme_illegalCharacter hb (c.position.afterAll gap)
    cases hb with
    | illegal hblank hmark _ => rw [readToken_gap hc hg hblank hmark, hread]
  | @unterminated gap behind hc hg hb =>
    have hlength : gap.length + (quote :: behind).length = c.rest.length := by
      rw [hc, List.length_append]
    rw [readToken_gap hc hg (by decide) (by decide),
      readLexeme_unterminated hb (rest_advance hc), rest_advance hc]
    simp only [Cursor.advance_advance, hlength]

theorem nextToken (c : Cursor) : NextToken c (readToken c) := by
  have of_next {r : EStateM.Result Failure Cursor (Option Token)} (h : NextToken c r) :
      NextToken c (readToken c) := h.readToken.symm ▸ h
  rcases gap_or_more c.rest with hf | ⟨gap, first, behind, hc, hg, hb, hm⟩
  · exact of_next (.final hf)
  · rcases lexeme_or_break behind hb hm with ⟨x, y, rest, heq, hx, he⟩ | ⟨cause, hs⟩
    · rw [heq, ← List.append_assoc] at hc
      exact of_next (.token hc hg hx he)
    · cases hs with
      | illegal hblank hmark hno => exact of_next (.illegal hc hg (.illegal hblank hmark hno))
      | unterminated hno => exact of_next (.unterminated hc hg (.unterminated hno))

theorem nextToken_iff {c : Cursor} {r : EStateM.Result Failure Cursor (Option Token)} :
    readToken c = r ↔ NextToken c r :=
  ⟨fun h => h ▸ nextToken c, NextToken.readToken⟩

theorem Scan.spelled_ofCursor (c : Cursor) :
    ∀ t ∈ (Scan.ofCursor c).tokens, ∃ x, Spelling x t.lexeme := by
  induction c using readToken_induction with
  | step c ih =>
    cases h : readToken c with
    | ok t c' =>
      cases t with
      | none => simp [Scan.ofCursor_none h]
      | some t =>
        rw [Scan.ofCursor_some h]
        refine List.forall_mem_cons.2 ⟨?_, ih t c' h⟩
        cases nextToken_iff.1 h with
        | token _ _ hx _ => exact ⟨_, hx⟩
    | error e c' => simp [Scan.ofCursor_error h]

/-- Reading the tokens takes the first cursor to the second. -/
inductive Passes : Cursor → List Token → Cursor → Prop
  | nil (c : Cursor) : Passes c [] c
  | cons {c mid c' : Cursor} {t : Token} {ts : List Token} :
    readToken c = .ok (some t) mid → Passes mid ts c' → Passes c (t :: ts) c'

namespace Passes

variable {c mid c' : Cursor} {ts us : List Token} {t : Token}

theorem append (h : Passes c ts mid) (h' : Passes mid us c') : Passes c (ts ++ us) c' := by
  induction h with
  | nil => exact h'
  | cons ht _ ih => exact .cons ht (ih h')

theorem snoc (h : Passes c ts mid) (ht : readToken mid = .ok (some t) c') :
    Passes c (ts ++ [t]) c' :=
  h.append (.cons ht (.nil c'))

theorem unique (h : Passes c ts mid) (h' : Passes c ts c') : mid = c' := by
  induction h with
  | nil =>
    cases h'
    rfl
  | cons ht _ ih =>
    cases h' with
    | cons ht' h' =>
      obtain ⟨-, rfl⟩ := EStateM.Result.ok.inj (ht.symm.trans ht')
      exact ih h'

theorem scan (h : Passes c ts c') : Scan.ofCursor c = (Scan.ofCursor c').behind ts := by
  induction h with
  | nil => rfl
  | cons ht _ ih =>
    rw [Scan.ofCursor_some ht, ih]
    rfl

end Passes

theorem Munches.passes {p q : Position} {cs behind : List Char} {ts : List Token}
    (h : Munches p cs ts q behind) {c : Cursor} (hp : c.position = p) (hc : c.rest = cs) :
    ∃ c', Passes c ts c' ∧ c'.position = q ∧ c'.rest = behind := by
  induction h generalizing c with
  | nil p cs => exact ⟨c, .nil c, hp, hc⟩
  | @cons p q gap x cs behind y ts hg hx he _ ih =>
    subst hp
    obtain ⟨c', hts, hc'⟩ := ih (position_advance hc) (rest_advance hc)
    exact ⟨c', .cons (readToken_spelling hc hg hx he) hts, hc'⟩

theorem Munches.tokenized {source behind : List Char} {ts : List Token} {p : Position}
    (hm : Munches .start source ts p behind) (hf : FinalGap behind) :
    tokenize source = .ok ts := by
  obtain ⟨c, hts, -, rfl⟩ := hm.passes (c := .ofChars source) rfl rfl
  rw [tokenize, Scan.ofChars, hts.scan, Scan.ofCursor_none (readToken_final hf)]
  exact congrArg Except.ok (List.append_nil ts)

theorem Munches.broken {source gap rest : List Char} {ts : List Token} {p : Position}
    {cause : Cause} (hm : Munches .start source ts p (gap ++ rest)) (hg : Gap gap)
    (hb : Breaks rest cause) : tokenize source = .error (.malformed ⟨p.afterAll gap, cause⟩) := by
  obtain ⟨c, hts, rfl, hc⟩ := hm.passes (c := .ofChars source) rfl rfl
  obtain ⟨c', hr⟩ := readToken_breaks hc hg hb
  rw [tokenize, Scan.ofChars, hts.scan, Scan.ofCursor_error hr]
  rfl

theorem munches_of_tokenize {source : List Char} {ts : List Token}
    (h : tokenize source = .ok ts) :
    ∃ p behind, Munches .start source ts p behind ∧ FinalGap behind := by
  obtain ⟨us, p, behind, hm, hf | ⟨gap, rest, cause, rfl, hg, hb⟩⟩ := munches_total .start source
  · obtain rfl := Except.ok.inj ((hm.tokenized hf).symm.trans h)
    exact ⟨p, behind, hm, hf⟩
  · cases (hm.broken hg hb).symm.trans h

theorem munches_of_tokenize_error {source : List Char} {e : Failure}
    (h : tokenize source = .error e) : ∃ ts p gap rest cause,
      Munches .start source ts p (gap ++ rest) ∧ Gap gap ∧ Breaks rest cause ∧
        e = .malformed ⟨p.afterAll gap, cause⟩ := by
  obtain ⟨us, p, behind, hm, hf | ⟨gap, rest, cause, rfl, hg, hb⟩⟩ := munches_total .start source
  · cases (hm.tokenized hf).symm.trans h
  · obtain rfl := Except.error.inj ((hm.broken hg hb).symm.trans h)
    exact ⟨us, p, gap, rest, cause, hm, hg, hb, rfl⟩

end RuleLang
