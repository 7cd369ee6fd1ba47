import RuleLang.Proofs.Relocation

/-!
Texts one behind the other. A line feed goes on with no lexeme, nor does the mark of a comment, so
the tokens of a text stay what they are when a new line is begun behind it. The text on that line
is read as if it stood alone, further down, and a comment in between changes nothing.
-/
namespace RuleLang

open Alphabet Lexer

theorem Gap.append {gap gap' : List Char} (hg : Gap gap) (hg' : Gap gap') : Gap (gap ++ gap') := by
  induction hg with
  | nil => exact hg'
  | blank hc _ ih => exact .blank hc ih
  | @comment body cs hb _ ih =>
    rw [List.cons_append, List.append_assoc, List.cons_append]
    exact .comment hb ih

theorem Gap.line : Gap [lineFeed] := .blank (by decide) .nil

theorem FinalGap.line {gap : List Char} (h : FinalGap gap) : Gap (gap ++ [lineFeed]) := by
  cases h with
  | whole hg => exact hg.append .line
  | cutOff hg hb =>
    rw [List.append_assoc]
    exact hg.append (.comment hb .nil)

theorem FinalGap.comment {gap body : List Char} (h : FinalGap gap) (hb : lineFeed ∉ body) :
    FinalGap (gap ++ commentMark :: body) := by
  cases h with
  | whole hg => exact .cutOff hg hb
  | @cutOff gap body' hg hb' =>
    rw [List.append_assoc]
    refine .cutOff hg fun hmem => ?_
    rcases List.mem_append.1 hmem with h | h
    · exact hb' h
    · exact (List.mem_cons.1 h).elim (by decide) hb

/-- A text whose first character goes on with no lexeme. -/
def Separates (cs : List Char) : Prop :=
  ∀ c ∈ cs.head?, ¬ isDigit c ∧ c ≠ point ∧ ¬ isIdentifierChar c ∧ ¬ isOperatorChar c

theorem separates_line (cs : List Char) : Separates (lineFeed :: cs) := by
  intro c hc
  obtain rfl := Option.some.inj hc
  decide

theorem separates_comment (cs : List Char) : Separates (commentMark :: cs) := by
  intro c hc
  obtain rfl := Option.some.inj hc
  decide

theorem Separates.ends {cs : List Char} (h : Separates cs) (x : List Char) (y : Lexeme) :
    y.Ends x cs := by
  cases y with
  | number _ => exact fun c hc => ⟨(h c hc).1, fun _ => (h c hc).2.1⟩
  | identifier _ | keyword _ => exact fun c hc => (h c hc).2.2.1
  | operator _ => exact fun c hc => (h c hc).2.2.2
  | string _ | punctuation _ => trivial

section Cuts

variable {p q : Position} {cs behind more : List Char} {ts : List Token}

theorem Lexeme.Ends.append {x : List Char} {y : Lexeme} (h : y.Ends x cs)
    (hm : cs = [] → Separates more) : y.Ends x (cs ++ more) := by
  cases cs with
  | nil => exact (hm rfl).ends x y
  | cons c cs => cases y <;> exact h

theorem Munches.append (h : Munches p cs ts q behind) (hm : behind = [] → Separates more) :
    Munches p (cs ++ more) ts q (behind ++ more) := by
  induction h with
  | nil p cs => exact .nil p _
  | @cons p q gap x cs behind y ts hg hx he h ih =>
    obtain ⟨taken, rfl, -⟩ := h.taken
    rw [List.append_assoc]
    exact .cons hg hx (he.append fun hnil => hm (List.append_eq_nil_iff.1 hnil).2) (ih hm)

theorem Munches.passes_line {source : List Char} (hm : Munches .start source ts p behind)
    (hf : FinalGap behind) (more : List Char) :
    ∃ c gap, Passes (.ofChars (source ++ lineFeed :: more)) ts c ∧ c.rest = gap ++ more ∧ Gap gap ∧
      c.position.afterAll gap = Position.start.afterAll (source ++ [lineFeed]) := by
  obtain ⟨taken, rfl, rfl⟩ := hm.taken
  obtain ⟨c, hts, hp, hc⟩ := (hm.append fun _ => separates_line more).passes
    (c := .ofChars (taken ++ behind ++ lineFeed :: more)) rfl rfl
  refine ⟨c, behind ++ [lineFeed], hts, ?_, hf.line, ?_⟩
  · rw [hc, List.append_assoc, List.singleton_append]
  · rw [hp, ← Position.afterAll_append, List.append_assoc]

end Cuts

theorem Position.line_afterAll (p : Position) (cs : List Char) :
    (p.afterAll cs).line = p.line + cs.count lineFeed := by
  induction cs generalizing p with
  | nil => simp
  | cons c cs ih =>
    rw [afterAll_cons, ih, after, List.count_cons]
    by_cases hc : c = lineFeed
    · simp only [hc, beq_self_eq_true, if_true, lineFeed]
      omega
    · have hc' : c ≠ '\n' := hc
      simp [hc, hc']

theorem Position.afterAll_line (p : Position) (cs : List Char) :
    p.afterAll (cs ++ [lineFeed]) = ⟨p.line + (cs ++ [lineFeed]).count lineFeed, 0⟩ := by
  rw [← line_afterAll, afterAll_append]
  rfl

theorem Lexer.ofCursor_congr {c d : Cursor} (h : readToken c = readToken d) :
    Scan.ofCursor c = Scan.ofCursor d := by
  cases hd : readToken d with
  | ok t m =>
    rw [hd] at h
    cases t with
    | none => rw [Scan.ofCursor_none h, Scan.ofCursor_none hd]
    | some t => rw [Scan.ofCursor_some h, Scan.ofCursor_some hd]
  | error e m =>
    rw [hd] at h
    rw [Scan.ofCursor_error h, Scan.ofCursor_error hd]

theorem Relocation.OnCursors.scan {R : Relocation} {c d : Cursor} (h : R.OnCursors c d) :
    List.Forall₂ R.correspondence.token (Scan.ofCursor c).tokens (Scan.ofCursor d).tokens ∧
      Option.Rel R.Moves (Scan.ofCursor c).failure (Scan.ofCursor d).failure := by
  induction c using readToken_induction generalizing d with
  | step c ih =>
    have hread := h.readToken
    cases hc : Lexer.readToken c with
    | error e c' =>
      cases hd : Lexer.readToken d with
      | ok u d' =>
        rw [hc, hd] at hread
        obtain rfl : e = .exhausted := hread
        obtain ⟨p, cause, he, -⟩ := readToken_error hc
        cases he
      | error f d' =>
        rw [hc, hd] at hread
        obtain ⟨p, cause, rfl, -⟩ := readToken_error hc
        rw [Scan.ofCursor_error hc, Scan.ofCursor_error hd]
        exact ⟨.nil, .some (hread.resolve_left nofun).1⟩
    | ok t c' =>
      cases hd : Lexer.readToken d with
      | error f d' =>
        rw [hc, hd] at hread
        exact hread.elim
      | ok u d' =>
        rw [hc, hd] at hread
        obtain ⟨htu, hleft⟩ := hread
        cases htu with
        | none =>
          rw [Scan.ofCursor_none hc, Scan.ofCursor_none hd]
          exact ⟨.nil, .none⟩
        | some htu =>
          obtain ⟨htokens, hfailure⟩ := ih _ _ hc hleft
          rw [Scan.ofCursor_some hc, Scan.ofCursor_some hd]
          exact ⟨.cons htu htokens, hfailure⟩

/-- What tokenizing a text answers if tokens come before it and it stands further down. -/
def continued (ts : List Token) (k : Int) :
    Except Failure (List Token) → Except Failure (List Token)
  | .ok us => .ok (ts ++ us.map (Token.moved (.down k)))
  | .error e => .error (e.moved (.down k))

theorem Scan.result_behind {k : Int} {c d : Cursor} (h : (Relocation.down k).OnCursors c d)
    (ts : List Token) : ((Scan.ofCursor d).behind ts).result =
      continued ts k (Scan.ofCursor c).result := by
  obtain ⟨htokens, hfailure⟩ := h.scan
  have hus := (Relocation.along_down k).tokens htokens
  unfold result behind
  generalize (Scan.ofCursor c).failure = e at hfailure
  generalize (Scan.ofCursor d).failure = f at hfailure
  cases hfailure with
  | none => exact congrArg (fun us => Except.ok (ts ++ us)) hus
  | some hef => exact congrArg Except.error ((Relocation.along_down k).failure hef)

theorem Munches.tokenized_line {source behind : List Char} {ts : List Token} {p : Position}
    (hm : Munches .start source ts p behind) (hf : FinalGap behind) (second : List Char) :
    tokenize (source ++ lineFeed :: second) =
      continued ts (source.count lineFeed + 1) (tokenize second) := by
  obtain ⟨c, gap, hts, hc, hg, hp⟩ := hm.passes_line hf second
  have hplace : (c.advance gap.length).position =
      Position.start.down (source.count lineFeed + 1) := by
    rw [position_advance hc, hp, Position.afterAll_line]
    simp [Position.down, Position.start]
  rw [tokenize, Scan.ofChars, hts.scan, ofCursor_congr (readToken_behind hc hg)]
  exact Scan.result_behind (c := .ofChars second) ⟨(rest_advance hc).symm, hplace⟩ ts

/-- Tokenizing goes line by line. Behind a text that is tokenized, with or without a comment to end
its last line, the next line begins a text of its own, further down; and a character that nothing
can start with is an error whatever comes behind it. -/
theorem tokenize_lines (first : List Char) :
    (∀ ts, tokenize first = .ok ts → ∀ comment second : List Char, lineFeed ∉ comment →
      tokenize (first ++ lineFeed :: second) =
          continued ts (first.count lineFeed + 1) (tokenize second) ∧
        tokenize (first ++ commentMark :: comment ++ lineFeed :: second) =
          continued ts (first.count lineFeed + 1) (tokenize second)) ∧
    ∀ p c, tokenize first = .error (.malformed ⟨p, .illegalCharacter c⟩) → ∀ second : List Char,
      tokenize (first ++ second) = .error (.malformed ⟨p, .illegalCharacter c⟩) := by
  refine ⟨fun ts h comment second hcomment => ?_, fun p c h second => ?_⟩
  · obtain ⟨p, behind, hm, hf⟩ := munches_of_tokenize h
    refine ⟨hm.tokenized_line hf second, ?_⟩
    -- the comment makes a longer gap of what stands behind the last token
    have hcut := hm.append fun _ => separates_comment comment
    have hcount : (first ++ commentMark :: comment).count lineFeed = first.count lineFeed := by
      rw [List.count_append, List.count_cons_of_ne (by decide), List.count_eq_zero.2 hcomment,
        Nat.add_zero]
    rw [hcut.tokenized_line (hf.comment hcomment), hcount]
  · obtain ⟨ts, q, gap, rest, cause, hm, hg, hb, he⟩ := munches_of_tokenize_error h
    obtain ⟨rfl, rfl⟩ := SyntaxError.mk.inj (Failure.malformed.inj he)
    cases hb with
    | @illegal _ cs hblank hmark hno =>
      have hnil : gap ++ c :: cs = [] → Separates second := fun h => by simp at h
      have hcut := hm.append hnil
      rw [List.append_assoc] at hcut
      have hbreaks : Breaks (c :: cs ++ second) (.illegalCharacter c) := .illegal hblank hmark hno
      exact hcut.broken hg hbreaks

theorem tokenize_lines_illegal :
    tokenize ['a', '#', '!', '\n', '1', '@'] =
        .error (.malformed ⟨⟨2, 1⟩, .illegalCharacter '@'⟩) ∧
      tokenize ['1', '@', 'b'] = .error (.malformed ⟨⟨1, 1⟩, .illegalCharacter '@'⟩) := by
  have hfirst : tokenize ['a'] = .ok [⟨.identifier "a", ⟨1, 0⟩⟩] := rfl
  have hsecond : tokenize ['1', '@'] = .error (.malformed ⟨⟨1, 1⟩, .illegalCharacter '@'⟩) := rfl
  obtain ⟨-, hcomment⟩ := (tokenize_lines ['a']).1 _ hfirst ['!'] ['1', '@'] (by decide)
  rw [hsecond] at hcomment
  exact ⟨hcomment, (tokenize_lines ['1', '@']).2 _ _ hsecond ['b']⟩

end RuleLang
