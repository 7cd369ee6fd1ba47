import RuleLang.Proofs.Relocation
import RuleLang.Proofs.Sessions

/-!
Sessions in the middle of a text. A session that begins in the middle of a text answers like one
that has only the rest of the text, as if that rest stood alone. Its places are displaced: every
line by the line where it began, and the columns of its first line by the column.
-/
namespace RuleLang

open RuleLang.Parser

def Position.displaced (start p : Position) : Position :=
  ⟨p.line + start.line - 1, if p.line = 1 then p.column + start.column else p.column⟩

theorem Position.displaced_start (start : Position) :
    Position.displaced start .start = start := by
  obtain ⟨line, column⟩ := start
  simp only [displaced, Position.start, if_true, Position.mk.injEq]
  omega

/-- Text that stands behind a place; the lines of a text count from one. -/
def Relocation.displaced (start : Position) : Relocation where
  place p q := 1 ≤ p.line ∧ q = start.displaced p
  after {p q} c h := by
    obtain ⟨hp, rfl⟩ := h
    unfold Position.after Position.displaced
    split
    · have hne : p.line + 1 ≠ 1 := by omega
      simp only [hne, if_false, Position.mk.injEq, and_true]
      omega
    · refine ⟨hp, ?_⟩
      simp only [Position.mk.injEq, true_and]
      split <;> omega

theorem Relocation.along_displaced (start : Position) :
    (Relocation.displaced start).Along start.displaced := fun _ _ h => h.2

/-- The reader looks at the text that is left, and neither at its place nor at its offset. -/
def Lexer.Reading.ByText {α : Type} (r : Reading α) : Prop :=
  ∀ c d : Cursor, c.rest = d.rest →
    (∃ a n, r c = .ok a (c.advance n) ∧ r d = .ok a (d.advance n)) ∨
      ∃ text n, r c = .error (.notANumber text) (c.advance n) ∧
        r d = .error (.notANumber text) (d.advance n)

namespace Lexer.Reading.ByText

theorem readRun (run : List Char → List Char) : ByText (readRun run) := by
  intro c d h
  rw [readRun_eq, readRun_eq, ← h]
  exact .inl ⟨_, _, rfl, rfl⟩

theorem map {α β : Type} {r : Reading α} (h : ByText r) (f : α → β) : ByText (f <$> r) := by
  intro c d hrest
  simp only [Functor.map, EStateM.map]
  obtain ⟨a, n, hc, hd⟩ | ⟨text, n, hc, hd⟩ := h c d hrest <;> rw [hc, hd]
  · exact .inl ⟨_, n, rfl, rfl⟩
  · exact .inr ⟨text, n, rfl, rfl⟩

theorem readNumber : ByText readNumber := by
  intro c d h
  rw [readNumber_eq, readNumber_eq, ← h]
  cases Decimal.ofNumeral? (numeralRun c.rest) with
  | some x => exact .inl ⟨_, _, rfl, rfl⟩
  | none => exact .inr ⟨_, _, rfl, rfl⟩

theorem nextChar : ByText Session.nextChar := by
  intro c d h
  refine .inl ⟨c.peek, 1, rfl, ?_⟩
  rw [show c.peek = d.peek from congrArg List.head? h]
  rfl

theorem skipBlanks : ByText skipBlanks := (readRun _).map fun _ => ()

theorem skipLine : ByText skipLine := by
  intro c d h
  have hskip (c : Cursor) : Lexer.skipLine c =
      .ok () (c.advance ((c.rest.takeWhile (· ≠ Alphabet.lineFeed)).length + 1)) := by
    rw [← Cursor.advance_advance]
    rfl
  rw [hskip, hskip, h]
  exact .inl ⟨(), _, rfl, rfl⟩

end Lexer.Reading.ByText

namespace Relocation

variable (R : Relocation)

inductive OnFailures : Failure → Failure → Prop
  | moved {e f : Failure} : R.Moves e f → OnFailures e f
  | notANumber (text : String) : OnFailures (.notANumber text) (.notANumber text)

inductive OnOutcomes : Outcome → Outcome → Prop
  | answered {a b : Answer} : a.Matches R.correspondence b → OnOutcomes (.ok a) (.ok b)
  | failed {e f : Failure} : R.OnFailures e f → OnOutcomes (.error e) (.error f)

inductive OnResults : EStateM.Result Failure Lexer Answer → EStateM.Result Failure Lexer Answer →
    Prop
  | ok {a b : Answer} {l m : Lexer} :
    a.Matches R.correspondence b → R.OnLexers l m → OnResults (.ok a l) (.ok b m)
  | error {e f : Failure} {l m : Lexer} :
    R.OnFailures e f → R.OnLexers l m → OnResults (.error e l) (.error f m)

variable {R}

section Steps

variable {l m : Lexer}

theorem OnLexers.call (h : R.OnLexers l m) {c d : Call} (hcd : c.Matches R.correspondence d) :
    R.OnResults (c.perform l) (d.perform m) := by
  have hsize : TokenSource.size l = TokenSource.size m := by
    obtain ⟨c, t⟩ := l
    obtain ⟨d, u⟩ := m
    obtain ⟨⟨hrest, -⟩, ht⟩ := h
    have hahead : t.toList.length = u.toList.length := by
      cases ht <;> rfl
    exact congrArg₂ (· + ·) (congrArg List.length hrest) hahead
  have hlock : Lockstep R.correspondence Lexer Lexer false (Answer.Matches R.correspondence)
      (c.reader (TokenSource.size l + 1)) (d.reader (TokenSource.size m + 1)) :=
    Call.reader_matches (Nat.le_of_eq (congrArg (· + 1) hsize)) hcd
  have hagree : Agree _ _ _ (c.perform l) (d.perform m) := R.simulation.run hlock h
  rcases hagree.outcomes (c.lexer_not_exhausted l) with
    ⟨a, l', b, m', hl, hm, hab, hleft⟩ | ⟨e, l', f, m', hl, hm, hef, hleft⟩
  · rw [hl, hm]
    exact .ok hab hleft
  · rw [hl, hm]
    exact .error (.moved hef) hleft

theorem OnLexers.reading (h : R.OnLexers l m) {α : Type} {r : Lexer.Reading α} (hr : r.ByText)
    (answer : α → Answer) (ha : ∀ a, (answer a).Matches R.correspondence (answer a)) :
    R.OnResults ((answer <$> Lexer.reading r : Parser Lexer Answer) l)
      ((answer <$> Lexer.reading r : Parser Lexer Answer) m) := by
  simp only [Functor.map, EStateM.map, Lexer.reading]
  obtain ⟨a, n, hl, hm⟩ | ⟨text, n, hl, hm⟩ := hr _ _ h.1.1 <;> rw [hl, hm]
  · exact .ok (ha a) ⟨h.1.advance n, h.2⟩
  · exact .error (.notANumber text) ⟨h.1.advance n, h.2⟩

theorem OnLexers.readToken (h : R.OnLexers l m) :
    R.OnResults ((Answer.token <$> Lexer.reading Lexer.readToken : Parser Lexer Answer) l)
      ((Answer.token <$> Lexer.reading Lexer.readToken : Parser Lexer Answer) m) := by
  have hx (c : Cursor) : Lexer.readToken l.cursor ≠ .error .exhausted c := by
    intro hc
    have hnext := nextToken l.cursor
    rw [hc] at hnext
    cases hnext
  simp only [Functor.map, EStateM.map, Lexer.reading]
  rcases h.1.readToken.outcomes hx with
    ⟨t, c, u, d, hc, hd, htu, hleft⟩ | ⟨e, c, f, d, hc, hd, hef, hleft⟩ <;> rw [hc, hd]
  · exact .ok (.token htu) ⟨hleft, h.2⟩
  · exact .error (.moved hef) ⟨hleft, h.2⟩

end Steps

section Histories

variable {history history' : List Outcome}

theorem answerAt_rel (h : List.Forall₂ R.OnOutcomes history history') (i : Nat) :
    Option.Rel (Answer.Matches R.correspondence) (Session.answerAt history i)
      (Session.answerAt history' i) := by
  unfold Session.answerAt
  induction h generalizing i with
  | nil => exact .none
  | cons ho _ ih =>
    cases i with
    | succ i => exact ih i
    | zero =>
      cases ho with
      | answered hab => exact .some hab
      | failed _ => exact .none

theorem nodeAt_matches (h : List.Forall₂ R.OnOutcomes history history') (i : Nat) :
    (Session.nodeAt history i).Matches R.correspondence (Session.nodeAt history' i) := by
  have ha := answerAt_rel h i
  unfold Session.nodeAt
  generalize Session.answerAt history i = a at ha
  generalize Session.answerAt history' i = b at ha
  cases ha with
  | none => exact trivial
  | some hab =>
    cases hab with
    | node hn => exact hn
    | token ht =>
      cases ht with
      | none => exact trivial
      | some ht => exact ht
    | _ => exact trivial

theorem token?_rel {a b : Answer} (h : a.Matches R.correspondence b) :
    Option.Rel R.correspondence.token a.token? b.token? := by
  cases h with
  | token ht => exact ht
  | @node n m hn =>
    cases n <;> cases m <;> first | exact .some hn | exact .none | exact hn.elim
  | _ => exact .none

theorem call?_rel (h : List.Forall₂ R.OnOutcomes history history') (s : Step) :
    Option.Rel (Call.Matches R.correspondence) (s.call? history) (s.call? history') := by
  cases s with
  | invocation i => exact .some (nodeAt_matches h i)
  | bindings i least => exact .some ⟨nodeAt_matches h i, rfl⟩
  | _ => first | exact .none | exact .some rfl

end Histories

end Relocation

/-- The step names no line and no column of its own. -/
def Step.NamesNoPlace : Step → Prop
  | failHere _ line column => line = none ∧ column = none
  | readString _ => False
  | _ => True

namespace Relocation

variable {R : Relocation} {history history' : List Outcome} {l m : Lexer}

theorem OnLexers.perform (h : R.OnLexers l m) (hh : List.Forall₂ R.OnOutcomes history history')
    {s : Step} (hs : s.NamesNoPlace) :
    R.OnResults (Session.perform history s l) (Session.perform history' s m) := by
  have hcall := call?_rel hh s
  -- calls are in lockstep on both sides; the other steps read the text that is left
  cases hc : s.call? history with
  | some c =>
    rw [hc] at hcall
    obtain ⟨d, hd⟩ : ∃ d, s.call? history' = some d := by
      cases hcall' : s.call? history' with
      | none => rw [hcall'] at hcall; cases hcall
      | some d => exact ⟨d, rfl⟩
    rw [hd] at hcall
    rw [Call.perform_step hc, Call.perform_step hd]
    cases hcall with
    | some hcd => exact h.call hcd
  | none =>
    have hpeek : l.cursor.peek = m.cursor.peek := congrArg List.head? h.1.1
    have hend : l.cursor.atEnd = m.cursor.atEnd := congrArg List.isEmpty h.1.1
    cases s with
    | peekChar => exact .ok (hpeek ▸ .character _) h
    | atEnd => exact .ok (hend ▸ .flag _) h
    | nextChar => exact h.reading .nextChar .character fun _ => .character _
    | failHere message line column =>
      obtain ⟨rfl, rfl⟩ := hs
      exact .error (.moved (.malformed _ h.1.2)) h
    | failAtToken message earlier =>
      have htoken : Option.Rel R.correspondence.token
          ((earlier.bind (Session.answerAt history)).bind Answer.token?)
          ((earlier.bind (Session.answerAt history')).bind Answer.token?) := by
        cases earlier with
        | none => exact .none
        | some i =>
          have ha := answerAt_rel hh i
          rw [Option.bind_some, Option.bind_some]
          generalize Session.answerAt history i = a at ha
          generalize Session.answerAt history' i = b at ha
          cases ha with
          | none => exact .none
          | some hab => exact token?_rel hab
      rw [Call.perform_onText rfl, Call.perform_onText rfl, Session.onText, Session.onText]
      generalize (earlier.bind (Session.answerAt history)).bind Answer.token? = t at htoken
      generalize (earlier.bind (Session.answerAt history')).bind Answer.token? = u at htoken
      cases htoken with
      | none => exact .error (.moved (.malformed _ h.here)) h
      | some ht => exact .error (.moved (.malformed _ ht.2)) h
    | readToken => exact h.readToken
    | readNumber => exact h.reading .readNumber .number fun _ => .number _
    | readWord =>
      exact h.reading ((Lexer.Reading.ByText.readRun _).map _) .text fun _ => .text _
    | readOperator =>
      exact h.reading ((Lexer.Reading.ByText.readRun _).map _) .text fun _ => .text _
    | readString opening => exact hs.elim
    | readWhile chars =>
      exact h.reading (.readRun _) (fun cs => .text (String.ofList cs)) fun _ => .text _
    | skipBlanks => exact h.reading .skipBlanks (fun _ => .done) fun _ => .done
    | skipLine => exact h.reading .skipLine (fun _ => .done) fun _ => .done
    | _ => cases hc

theorem OnLexers.step (h : R.OnLexers l m) (hh : List.Forall₂ R.OnOutcomes history history')
    {s : Step} (hs : s.NamesNoPlace) :
    R.OnOutcomes (Session.step history s l).1 (Session.step history' s m).1 ∧
      R.OnLexers (Session.step history s l).2 (Session.step history' s m).2 := by
  have hp := h.perform hh hs
  unfold Session.step
  generalize Session.perform history s l = r at hp
  generalize Session.perform history' s m = r' at hp
  cases hp with
  | ok hab hleft => exact ⟨.answered hab, hleft⟩
  | error hef hleft => exact ⟨.failed hef, hleft⟩

theorem OnLexers.run (h : R.OnLexers l m) (hh : List.Forall₂ R.OnOutcomes history history')
    {steps : List Step} (hs : ∀ s ∈ steps, s.NamesNoPlace) :
    List.Forall₂ (fun r r' => R.OnOutcomes r.1 r'.1 ∧ R.OnLexers r.2 r'.2)
      (Session.run history steps l) (Session.run history' steps m) := by
  induction steps generalizing history history' l m with
  | nil => exact .nil
  | cons s steps ih =>
    obtain ⟨hfirst, hrest⟩ := List.forall_mem_cons.1 hs
    obtain ⟨ho, hleft⟩ := h.step hh hfirst
    exact .cons ⟨ho, hleft⟩ (ih hleft (List.rel_append hh (.cons ho .nil)) hrest)

end Relocation

def Answer.moved (f : Position → Position) : Answer → Answer
  | token t => token (t.map (Token.moved f))
  | node n => node (n.moved f)
  | nodes ns => nodes (ns.map (Node.moved f))
  | a => a

def Outcome.moved (f : Position → Position) : Outcome → Outcome
  | .ok a => .ok (a.moved f)
  | .error e => .error (e.moved f)

def Lexer.displaced (offset : Nat) (start : Position) (l : Lexer) : Lexer :=
  ⟨⟨l.cursor.rest, l.cursor.offset + offset, start.displaced l.cursor.position⟩,
    l.lookahead.map (Token.moved start.displaced)⟩

namespace Relocation.Along

variable {R : Relocation} {f : Position → Position}

theorem token? (hf : R.Along f) {t u : Option Token} (h : Option.Rel R.correspondence.token t u) :
    u = t.map (Token.moved f) := by
  cases h with
  | none => rfl
  | some h => exact congrArg some (hf.token h)

theorem answer (hf : R.Along f) {a b : Answer} (h : a.Matches R.correspondence b) :
    b = a.moved f := by
  cases h with
  | token h => rw [hf.token? h, Answer.moved]
  | node h => rw [hf.node h, Answer.moved]
  | nodes h => rw [hf.trees h, Answer.moved]
  | _ => rfl

theorem outcome (hf : R.Along f) {o o' : Outcome} (h : R.OnOutcomes o o') :
    o' = Outcome.moved f o := by
  cases h with
  | answered h => rw [hf.answer h, Outcome.moved]
  | failed h =>
    cases h with
    | moved h => rw [hf.failure h, Outcome.moved]
    | notANumber text => rfl

end Relocation.Along

theorem Relocation.OnLexers.eq_displaced {start : Position} {offset : Nat} {l m : Lexer}
    (h : (Relocation.displaced start).OnLexers l m)
    (hoffset : m.cursor.offset = l.cursor.offset + offset) : m = l.displaced offset start := by
  obtain ⟨⟨rest, n, p⟩, t⟩ := l
  obtain ⟨⟨rest', n', p'⟩, t'⟩ := m
  obtain ⟨⟨rfl, -, rfl⟩, ht⟩ := h
  obtain rfl : n' = n + offset := hoffset
  obtain rfl : t' = t.map (Token.moved start.displaced) :=
    (Relocation.along_displaced start).token? ht
  rfl

theorem Excerpt.Holds.offset_eq {source : List Char} {origin : Nat} {start : Position}
    {c d : Cursor} (hc : (whole (source.drop origin)).Holds c)
    (hd : (⟨source, origin, start⟩ : Excerpt).Holds d) (h : c.rest = d.rest) :
    d.offset = c.offset + origin := by
  have hleft := congrArg List.length (hc.rest.symm.trans (h.trans hd.rest))
  have hmost := hc.most (Nat.zero_le _)
  have hdmost := hd.most
  have hbeyond := hd.beyond
  have hleast := hd.least
  simp only [whole, List.length_drop] at hleft hmost hdmost hbeyond hleast
  omega

/-- A session that starts in the middle of a text, at any offset and with any place given to it,
answers step by step like a session on the rest of the text alone, as long as no step names a place
of its own. Every place in tokens, trees, errors and states is displaced, and every offset moved. -/
theorem session_displaced (source : List Char) (offset : Nat) (start : Position)
    {steps : List Step} (hs : ∀ s ∈ steps, s.NamesNoPlace) :
    Session.run [] steps ⟨.within source offset start, none⟩ =
      (Session.run [] steps (.ofChars (source.drop offset))).map fun r =>
        (Outcome.moved start.displaced r.1, r.2.displaced offset start) := by
  let whole : Excerpt := .whole (source.drop offset)
  let part : Excerpt := ⟨source, offset, start⟩
  have hstart : (Relocation.displaced start).OnLexers (.ofChars (source.drop offset))
      ⟨.within source offset start, none⟩ :=
    ⟨⟨rfl, Int.le_refl 1, (Position.displaced_start start).symm⟩, .none⟩
  obtain ⟨hlength, hrel⟩ := List.forall₂_iff_zip.1 (hstart.run .nil hs)
  have hwhole : whole.Serves 0 (.ofChars (source.drop offset)) :=
    ⟨⟨⟨0, (Cursor.advance_zero _).symm⟩, Nat.le_refl _⟩, nofun⟩
  have hpart : part.Serves offset ⟨part.cursor, none⟩ :=
    ⟨⟨⟨0, (Cursor.advance_zero _).symm⟩, Nat.le_refl _⟩, nofun⟩
  have hnone (e : Excerpt) : ∀ a, .ok a ∈ ([] : List Outcome) → a.ExactIn e := nofun
  have hserves := (hwhole.run_session (hnone _) steps).2
  have hserves' := (hpart.run_session (hnone _) steps).2
  have hall : List.Forall₂ (fun r r' => (Outcome.moved start.displaced r.1,
      r.2.displaced offset start) = r')
      (Session.run [] steps (.ofChars (source.drop offset)))
      (Session.run [] steps ⟨.within source offset start, none⟩) := by
    refine List.forall₂_iff_zip.2 ⟨hlength, fun {r r'} hz => ?_⟩
    obtain ⟨ho, hleft⟩ := hrel hz
    obtain ⟨hr, hr'⟩ := List.of_mem_zip hz
    have hoffset := (hserves r hr).1.cursor.holds.offset_eq (hserves' r' hr').1.cursor.holds
      hleft.1.1
    exact Prod.ext ((Relocation.along_displaced start).outcome ho).symm
      (hleft.eq_displaced hoffset).symm
  exact (eq_of_forall_eq (List.forall₂_map_left_iff.2 hall)).symm

theorem session_displaced_sign :
    (∀ s ∈ [Step.expression, .program], s.NamesNoPlace) ∧
      (Session.run [] [.expression, .program]
        ⟨.within ['a', '\n', '-', 'b', '\n', ')'] 2 ⟨7, 40⟩, none⟩).map (·.1) =
        [.ok (.node (.binary "*" (.leaf ⟨.number .minusOne, ⟨7, 40⟩⟩)
            (.leaf ⟨.identifier "b", ⟨7, 41⟩⟩))),
          .error (.malformed ⟨⟨8, 0⟩, .unexpected (.punctuation ")")⟩)] := by
  have hs : ∀ s ∈ [Step.expression, .program], s.NamesNoPlace := by
    rw [List.forall_mem_cons, List.forall_mem_singleton]
    exact ⟨trivial, trivial⟩
  have hrest : (Session.run [] [.expression, .program]
      (.ofChars (['a', '\n', '-', 'b', '\n', ')'].drop 2))).map (·.1) =
      [.ok (.node (.binary "*" (.leaf ⟨.number .minusOne, ⟨1, 0⟩⟩)
          (.leaf ⟨.identifier "b", ⟨1, 1⟩⟩))),
        .error (.malformed ⟨⟨2, 0⟩, .unexpected (.punctuation ")")⟩)] := rfl
  have hfirst (rs : List (Outcome × Lexer)) : (rs.map fun r =>
      (Outcome.moved (Position.displaced ⟨7, 40⟩) r.1, r.2.displaced 2 ⟨7, 40⟩)).map (·.1) =
        (rs.map (·.1)).map (Outcome.moved (Position.displaced ⟨7, 40⟩)) := by
    rw [List.map_map, List.map_map]
    rfl
  constructor
  · exact hs
  · rw [session_displaced _ 2 ⟨7, 40⟩ hs, hfirst, hrest]
    rfl

end RuleLang
