import RuleLang.Proofs.Calls
import RuleLang.Proofs.Standing

/-!
Delivery. A lexer and a parser that are called in any order deliver the tokens of the text once
each and in their order, and whether a call fails makes no difference to that. What has been
delivered is kept here beside the lexer; the calls themselves are answered as by a list of tokens,
from which an open string at its end takes away the rest of the text.
-/
namespace RuleLang

open RuleLang.Parser

/-- A lexer with the tokens that it has delivered. -/
structure Recorder where
  lexer : Lexer
  delivered : List Token

namespace Recorder

def ofChars (source : List Char) : Recorder := ⟨.ofChars source, []⟩

def peek : EStateM Failure Recorder (Option Token) := fun r =>
  match Lexer.peek r.lexer with
  | .ok t l => .ok t ⟨l, r.delivered⟩
  | .error e l => .error e ⟨l, r.delivered⟩

def next : EStateM Failure Recorder (Option Token) := fun r =>
  match Lexer.next r.lexer with
  | .ok t l => .ok t ⟨l, r.delivered ++ t.toList⟩
  | .error e l => .error e ⟨l, r.delivered⟩

instance : TokenSource Recorder where
  peek := peek
  next := next
  here r := r.lexer.here
  size r := TokenSource.size r.lexer

end Recorder

namespace Failure

def IsOpenString : Failure → Prop
  | malformed e => e.cause = .unterminatedString
  | _ => False

instance : DecidablePred IsOpenString
  | malformed e => inferInstanceAs (Decidable (e.cause = .unterminatedString))
  | notANumber _ | exhausted => isFalse id

def IsIllegal : Failure → Prop
  | malformed e => ∃ c, e.cause = .illegalCharacter c
  | _ => False

theorem IsIllegal.not_openString {e : Failure} (h : e.IsIllegal) : ¬ e.IsOpenString := by
  cases e with
  | malformed x =>
    obtain ⟨c, hc⟩ := h
    intro ho
    cases hc.symm.trans ho
  | _ => exact h.elim

theorem not_fair {e : Failure} (h : e.IsIllegal ∨ e.IsOpenString) : ¬ e.Fair := by
  obtain ⟨p, x⟩ | _ | _ := e
  · rcases h with ⟨c, rfl⟩ | rfl <;> exact id
  · exact h.elim False.elim False.elim
  · exact h.elim False.elim False.elim

theorem not_tooDeep {e : Failure} (h : e.IsIllegal ∨ e.IsOpenString) : ¬ e.IsTooDeep := by
  obtain ⟨p, x⟩ | _ | _ := e
  · rcases h with ⟨c, rfl⟩ | rfl <;> nofun
  · exact id
  · exact id

end Failure

/-- A scan that has come to the failure that it ends with. -/
def Scan.Halted (e : Failure) (s : Scan) : Prop := s.tokens = [] ∧ s.failure = some e

instance (e : Failure) (s : Scan) : Decidable (s.Halted e) :=
  inferInstanceAs (Decidable (s.tokens = [] ∧ s.failure = some e))

/-- What is left of a scan after a failure: an open string takes all the rest of the text. -/
def Scan.afterFailure (e : Failure) (s : Scan) : Scan :=
  if s.Halted e ∧ e.IsOpenString then .ofTokens [] s.stop else s

theorem Scan.afterFailure_of_not {e : Failure} (h : ¬ e.IsOpenString) (s : Scan) :
    s.afterFailure e = s := if_neg fun hs => h hs.2

theorem Scan.afterFailure_of_settled {s : Scan} (h : Settled s) (e : Failure) :
    s.afterFailure e = s := by
  refine if_neg fun ⟨⟨ht, hf⟩, _⟩ => ?_
  rcases h with h | h
  · exact h ht
  · cases h.symm.trans hf

@[simp] theorem Scan.tokens_afterFailure (e : Failure) (s : Scan) :
    (s.afterFailure e).tokens = s.tokens := by
  unfold afterFailure
  split
  · next h => exact h.1.1.symm
  · rfl

/-- The lexer stands somewhere in the text with the scan before it, and the tokens of the text are
those delivered and those of the scan. -/
def Tracks (source : List Char) (s : Scan) (r : Recorder) : Prop :=
  ∃ n, Lexer.At ((Cursor.ofChars source).advance n) r.lexer ∧
    s = .ofCursor ((Cursor.ofChars source).advance n) ∧
    r.delivered ++ s.tokens = (Scan.ofChars source).tokens

def Follows (source : List Char) (ready : Bool) (s : Scan) (r : Recorder) : Prop :=
  Tracks source s r ∧ (ready = true → s.here = r.lexer.here ∧ Settled s)

def Fails (source : List Char) (e f : Failure) (s : Scan) (r : Recorder) : Prop :=
  SameFailure e f ∧ Tracks source (s.afterFailure e) r

theorem Cursor.advance_over {c : Cursor} {xs ys : List Char} (h : c.rest = xs ++ ys) :
    c.advance xs.length = ⟨ys, c.offset + xs.length, c.position.afterAll xs⟩ := by
  simp [advance, h]

namespace Tracks

variable {source : List Char} {s : Scan} {r : Recorder}

theorem fresh (source : List Char) : Tracks source (.ofChars source) (.ofChars source) := by
  refine ⟨0, ?_, ?_, rfl⟩
  · rw [Cursor.advance_zero]
    exact .fresh
  · rw [Cursor.advance_zero]
    rfl

theorem failed {n : Nat} {c' : Cursor} {e : Failure} {delivered : List Token}
    (hr : Lexer.readToken ((Cursor.ofChars source).advance n) = .error e c')
    (hall : delivered ++ (Scan.ofCursor ((Cursor.ofChars source).advance n)).tokens =
      (Scan.ofChars source).tokens) :
    Tracks source ((Scan.ofCursor ((Cursor.ofChars source).advance n)).afterFailure e)
      ⟨⟨c', none⟩, delivered⟩ := by
  have hscan := Scan.ofCursor_error hr
  cases nextToken_iff.1 hr with
  | illegal hc hg _ =>
    rw [Scan.afterFailure_of_not (by simp [Failure.IsOpenString])]
    exact ⟨n, .stuck hr ((Lexer.readToken_behind hc hg).symm.trans hr), rfl, hall⟩
  | unterminated =>
    rw [hscan] at hall ⊢
    rw [Scan.afterFailure, if_pos ⟨⟨rfl, rfl⟩, rfl⟩]
    rw [Cursor.advance_advance]
    refine ⟨_, .fresh, (Lexer.ofCursor_end ?_).symm, hall⟩
    rw [← Cursor.advance_advance]
    exact List.drop_length

theorem peek (h : Tracks source s r) :
    Agree (Option.Rel (Correspondence.within fun _ => True).token) (Follows source true)
      (Fails source) (Scan.peek s) (Recorder.peek r) := by
  obtain ⟨n, hl, rfl, hall⟩ := h
  obtain ⟨l, delivered⟩ := r
  rw [Recorder.peek, hl.peek, Lexer.peek_eq]
  cases hr : Lexer.readToken ((Cursor.ofChars source).advance n) with
  | error e c' =>
    have hleft := failed hr hall
    rw [Scan.ofCursor_error hr] at hleft ⊢
    exact .inr ⟨.inl rfl, hleft⟩
  | ok t c' =>
    cases t with
    | none =>
      rw [Scan.ofCursor_none hr]
      refine ⟨.none, ⟨n, .looked hr, (Scan.ofCursor_none hr).symm, ?_⟩, fun _ => ⟨rfl, .inr rfl⟩⟩
      rwa [Scan.ofCursor_none hr] at hall
    | some t =>
      rw [Scan.ofCursor_some hr]
      refine ⟨.some ⟨rfl, trivial⟩, ⟨n, .looked hr, (Scan.ofCursor_some hr).symm, ?_⟩,
        fun _ => ⟨rfl, .inl (List.cons_ne_nil t _)⟩⟩
      rwa [Scan.ofCursor_some hr] at hall

theorem next (h : Tracks source s r) :
    Agree (Option.Rel (Correspondence.within fun _ => True).token) (Follows source false)
      (Fails source) (Scan.next s) (Recorder.next r) := by
  obtain ⟨n, hl, rfl, hall⟩ := h
  obtain ⟨l, delivered⟩ := r
  rw [Recorder.next, hl.next, Lexer.next_eq]
  cases hr : Lexer.readToken ((Cursor.ofChars source).advance n) with
  | error e c' =>
    have hleft := failed hr hall
    rw [Scan.ofCursor_error hr] at hleft ⊢
    exact .inr ⟨.inl rfl, hleft⟩
  | ok t c' =>
    cases t with
    | none =>
      rw [Scan.ofCursor_none hr] at hall ⊢
      refine ⟨.none, ⟨n, .looked hr, (Scan.ofCursor_none hr).symm, ?_⟩,
        (absurd · Bool.false_ne_true)⟩
      rwa [Option.toList_none, List.append_nil]
    | some t =>
      rw [Scan.ofCursor_some hr] at hall ⊢
      refine ⟨.some ⟨rfl, trivial⟩, ?_⟩
      cases nextToken_iff.1 hr with
      | token =>
        rw [Cursor.advance_advance] at hall ⊢
        refine ⟨⟨_, .fresh, rfl, ?_⟩, (absurd · Bool.false_ne_true)⟩
        rw [← hall]
        exact List.append_assoc delivered [_] _

theorem scan (h : Tracks source s r) : s = r.lexer.scan := by
  obtain ⟨n, hl, rfl, -⟩ := h
  exact hl.scan.symm

theorem tokens (h : Tracks source s r) :
    r.delivered ++ r.lexer.lookahead.toList ++ (Scan.ofCursor r.lexer.cursor).tokens =
      (Scan.ofChars source).tokens := by
  have hscan := h.scan
  obtain ⟨n, -, -, hall⟩ := h
  rw [← hall, hscan, List.append_assoc]
  obtain ⟨⟨c, _ | t⟩, delivered⟩ := r <;> rfl

theorem lookahead (h : Tracks source s r) {t : Token} (ht : r.lexer.lookahead = some t) :
    ∃ before x behind, source = before ++ x ++ behind ∧ Spelling x t.lexeme ∧
      t.lexeme.Ends x behind ∧ t.position = Position.start.afterAll before ∧
      r.lexer.cursor = ⟨behind, (before ++ x).length, Position.start.afterAll (before ++ x)⟩ := by
  obtain ⟨n, hl, -, -⟩ := h
  obtain ⟨l, delivered⟩ := r
  cases hl with
  | fresh | stuck => cases ht
  | @looked u c' hr =>
    obtain rfl : u = some t := ht
    have hcursor : (Cursor.ofChars source).advance n =
        ⟨source.drop n, (source.take n).length, Position.start.afterAll (source.take n)⟩ := by
      simp [Cursor.advance, Cursor.ofChars]
    have hsource := List.take_append_drop n source
    rw [hcursor] at hr
    generalize source.take n = passed at hr hsource
    generalize source.drop n = rest at hr hsource
    cases nextToken_iff.1 hr with
    | @token gap x behind _ hc hg hx he =>
      obtain rfl : rest = gap ++ x ++ behind := hc
      refine ⟨passed ++ gap, x, behind, ?_, hx, he, ?_, ?_⟩
      · rw [← hsource]
        simp only [List.append_assoc]
      · exact (Position.afterAll_append _ passed gap).symm
      · refine (Cursor.advance_over rfl).trans ?_
        simp only [List.length_append, Position.afterAll_append, Nat.add_assoc]

theorem stop_eq {stop : Position} (h : Tracks source (.ofTokens [] stop) r) :
    stop = Position.start.afterAll source := by
  obtain ⟨n, -, hs, -⟩ := h
  have hstop := Scan.stop_ofCursor (show (Scan.ofCursor _).failure = none by rw [← hs]; rfl)
  rwa [← hs, Cursor.afterAll_advance] at hstop

theorem not_exhausted (h : Tracks source s r) : s.failure ≠ some .exhausted := by
  rw [h.scan]
  exact r.lexer.failure_scan

theorem size_le (h : Tracks source s r) : TokenSource.size s ≤ TokenSource.size r := by
  rw [h.scan]
  exact r.lexer.size_scan_le

end Tracks

def Simulation.recorded (source : List Char) :
    Simulation (.within fun _ => True) Scan Recorder where
  state := Follows source
  stopped := Fails source
  forget h := ⟨h.1, nofun⟩
  peek h := h.1.peek
  next h := h.1.next
  fail h hxy _ := by
    obtain ⟨hhere, hset⟩ := h.2 rfl
    rw [Fails, Scan.afterFailure_of_settled hset, Cause.eq_of_matches hxy]
    exact ⟨.inl (congrArg (fun p => Failure.malformed ⟨p, _⟩) hhere), h.1⟩
  refuse h hxy hab := by
    obtain ⟨rfl, _⟩ := hxy
    obtain rfl : _ = _ := hab
    rw [Fails, Scan.afterFailure_of_not (by simp [Failure.IsOpenString])]
    exact ⟨.inl rfl, h.1⟩
  tooDeep h := by
    rw [Fails, Scan.afterFailure_of_not (by simp [Failure.IsOpenString])]
    exact ⟨.inr ⟨rfl, rfl⟩, h.1⟩

def Simulation.erased : Simulation (.within fun _ => True) Recorder Lexer where
  state _ r l := r.lexer = l
  stopped e f r l := e = f ∧ r.lexer = l
  forget h := h
  peek {_ r l} h := by
    subst h
    change Agree _ _ _ (Recorder.peek r) (Lexer.peek r.lexer)
    rw [Recorder.peek]
    cases Lexer.peek r.lexer with
    | ok t l => exact ⟨Correspondence.within_rel fun _ _ => trivial, rfl⟩
    | error e l => exact .inr ⟨rfl, rfl⟩
  next {_ r l} h := by
    subst h
    change Agree _ _ _ (Recorder.next r) (Lexer.next r.lexer)
    rw [Recorder.next]
    cases Lexer.next r.lexer with
    | ok t l => exact ⟨Correspondence.within_rel fun _ _ => trivial, rfl⟩
    | error e l => exact .inr ⟨rfl, rfl⟩
  fail h hxy _ := by
    subst h
    rw [Cause.eq_of_matches hxy]
    exact ⟨rfl, rfl⟩
  refuse h hxy hab := by
    obtain rfl : _ = _ := hab
    rw [hxy.1]
    exact ⟨rfl, h⟩
  tooDeep h := by
    subst h
    exact ⟨rfl, rfl⟩

namespace Call

variable {source : List Char} {s : Scan} {r : Recorder}

def stepScan (c : Call) (s : Scan) : Outcome × Scan :=
  match c.perform s with
  | .ok a s' => (.ok a, s')
  | .error e s' => (.error e, s'.afterFailure e)

def runScan : List Call → Scan → List Outcome × Scan
  | [], s => ([], s)
  | c :: cs, s =>
    ((c.stepScan s).1 :: (runScan cs (c.stepScan s).2).1, (runScan cs (c.stepScan s).2).2)

theorem perform_tracks (h : Tracks source s r) (c : Call) :
    (∃ a s' r', c.perform s = .ok a s' ∧ c.perform r = .ok a r' ∧ Tracks source s' r') ∨
      ∃ e s' f r', c.perform s = .error e s' ∧ c.perform r = .error f r' ∧
        Fails source e f s' r' := by
  have hagree : Agree _ _ _ (c.perform s) (c.perform r) :=
    (Simulation.recorded source).run (c.reader_lockstep (Nat.succ_le_succ h.size_le)) ⟨h, nofun⟩
  rcases hagree.outcomes fun s' => c.perform_not_exhausted h.not_exhausted with
    ⟨a, s', b, r', hs, hr, rfl, hleft⟩ | ⟨e, s', f, r', hs, hr, hef⟩
  · exact .inl ⟨a, s', r', hs, hr, hleft.1⟩
  · exact .inr ⟨e, s', f, r', hs, hr, hef⟩

theorem step_tracks (h : Tracks source s r) (c : Call) :
    SameAnswer (c.stepScan s).1 (c.step r).1 ∧ Tracks source (c.stepScan s).2 (c.step r).2 := by
  unfold stepScan step
  rcases c.perform_tracks h with ⟨a, s', r', hs, hr, hleft⟩ | ⟨e, s', f, r', hs, hr, hef⟩
  · rw [hs, hr]
    exact ⟨rfl, hleft⟩
  · rw [hs, hr]
    exact hef

theorem run_tracks (h : Tracks source s r) (cs : List Call) :
    List.Forall₂ SameAnswer (runScan cs s).1 (run cs r).1 ∧
      Tracks source (runScan cs s).2 (run cs r).2 := by
  induction cs generalizing s r with
  | nil => exact ⟨.nil, h⟩
  | cons c cs ih =>
    obtain ⟨hsame, hleft⟩ := c.step_tracks h
    obtain ⟨hall, hlast⟩ := ih hleft
    exact ⟨.cons hsame hall, hlast⟩

theorem step_lexer (h : Tracks source s r) (c : Call) :
    c.step r.lexer = ((c.step r).1, (c.step r).2.lexer) := by
  have hexhausted (r' : Recorder) : c.perform r ≠ .error .exhausted r' := by
    intro hr
    rcases c.perform_tracks h with ⟨a, s', r'', -, hr', -⟩ | ⟨e, s', f, r'', hs, hr', hef, -⟩
    · cases hr.symm.trans hr'
    · cases hr.symm.trans hr'
      rcases hef with rfl | ⟨-, hd⟩
      · exact c.perform_not_exhausted h.not_exhausted hs
      · exact hd
  have hagree : Agree _ _ _ (c.perform r) (c.perform r.lexer) :=
    Simulation.erased.run (c.reader_lockstep (Nat.le_refl (TokenSource.size r + 1))) rfl
  unfold step
  rcases hagree.outcomes hexhausted with
    ⟨a, r', b, l, hr, hl, rfl, rfl⟩ | ⟨e, r', f, l, hr, hl, rfl, rfl⟩
  · rw [hr, hl]
  · rw [hr, hl]

theorem run_lexer (h : Tracks source s r) (cs : List Call) :
    run cs r.lexer = ((run cs r).1, (run cs r).2.lexer) := by
  induction cs generalizing s r with
  | nil => rfl
  | cons c cs ih =>
    rw [run, step_lexer h, ih (c.step_tracks h).2]
    rfl

theorem stepScan_error {c : Call} {e : Failure} (h : (c.stepScan s).1 = .error e) :
    ∃ s', c.perform s = .error e s' ∧ (c.stepScan s).2 = s'.afterFailure e := by
  unfold stepScan at h ⊢
  cases hp : c.perform s with
  | ok a s' =>
    rw [hp] at h
    cases h
  | error f s' =>
    rw [hp] at h
    obtain rfl := Except.error.inj h
    exact ⟨s', rfl, rfl⟩

theorem perform_broken (c : Call) (stop : Position) (e : Failure) :
    c.perform (⟨[], stop, some e⟩ : Scan) = .error e ⟨[], stop, some e⟩ := by
  cases c <;> rfl

theorem perform_lexical {c : Call} {s s' : Scan} {e : Failure} (h : c.perform s = .error e s')
    (he : e.IsIllegal ∨ e.IsOpenString) : s'.Halted e := by
  by_cases hc : c = .unexpected
  · subst hc
    obtain ⟨_ | ⟨t, ts⟩, stop, _ | f⟩ := s <;> cases h
    · exact absurd he (by simp [Failure.IsIllegal, Failure.IsOpenString])
    · exact ⟨rfl, rfl⟩
    · exact absurd he (by simp [Failure.IsIllegal, Failure.IsOpenString])
    · exact absurd he (by simp [Failure.IsIllegal, Failure.IsOpenString])
  · have hfair := c.reader_fair (s.tokens.length + 1) hc s
    have hr : c.reader (s.tokens.length + 1) s = .error e s' := h
    rw [hr] at hfair
    obtain ⟨ht, hf⟩ := hfair.2.resolve_left (Failure.not_fair he)
    exact ⟨ht, hfair.1.trans hf⟩

theorem runScan_halted {s : Scan} {e : Failure} (hs : s.Halted e) (he : ¬ e.IsOpenString)
    (cs : List Call) : (∀ o ∈ (runScan cs s).1, o = .error e) ∧ (runScan cs s).2 = s := by
  obtain ⟨ts, stop, f⟩ := s
  obtain ⟨rfl, rfl⟩ : ts = [] ∧ f = some e := hs
  induction cs with
  | nil => exact ⟨nofun, rfl⟩
  | cons c cs ih =>
    have hc : c.stepScan ⟨[], stop, some e⟩ = (.error e, ⟨[], stop, some e⟩) := by
      rw [stepScan, perform_broken]
      exact congrArg (Prod.mk _) (Scan.afterFailure_of_not he _)
    rw [runScan, hc]
    exact ⟨List.forall_mem_cons.2 ⟨rfl, ih.1⟩, ih.2⟩

theorem halted_of_illegal {cs : List Call} {s : Scan} {e : Failure}
    (h : .error e ∈ (runScan cs s).1) (he : e.IsIllegal) : (runScan cs s).2.Halted e := by
  induction cs generalizing s with
  | nil => cases h
  | cons c cs ih =>
    rcases List.mem_cons.1 h with hc | hcs
    · obtain ⟨s', hp, hleft⟩ := stepScan_error hc.symm
      have hs' : s'.Halted e := perform_lexical hp (.inl he)
      rw [Scan.afterFailure_of_not he.not_openString] at hleft
      rw [runScan, hleft, (runScan_halted hs' he.not_openString cs).2]
      exact hs'
    · exact ih hcs

theorem step_ended (c : Call) (stop : Position) :
    c.stepScan (.ofTokens [] stop) = c.step (Scan.ofTokens [] stop) ∧
      (c.step (Scan.ofTokens [] stop)).2 = .ofTokens [] stop := by
  have hleaves {s' : Scan} (h : Leaves (.ofTokens [] stop) s') : s' = .ofTokens [] stop := by
    obtain ⟨used, hu⟩ := h
    obtain ⟨rfl, -⟩ := List.append_eq_nil_iff.1 (congrArg Scan.tokens hu).symm
    exact hu.symm
  have hlock : Lockstep (.within fun _ => True) Scan Scan false Eq (c.reader 1) (c.reader 1) :=
    c.reader_lockstep (Nat.le_refl 1)
  have hsober : Sober _ _ _ (c.perform (Scan.ofTokens [] stop)) :=
    hlock.sober (fun _ _ => trivial) nofun
  unfold stepScan step
  cases hp : c.perform (Scan.ofTokens [] stop) with
  | ok a s' =>
    rw [hp] at hsober
    exact ⟨rfl, hleaves hsober.2⟩
  | error e s' =>
    rw [hp] at hsober
    obtain rfl := hleaves hsober.1
    exact ⟨congrArg (Prod.mk _) (Scan.afterFailure_of_settled (.inr rfl) e), rfl⟩

theorem runScan_ended (cs : List Call) (stop : Position) :
    runScan cs (.ofTokens [] stop) = run cs (Scan.ofTokens [] stop) ∧
      (run cs (Scan.ofTokens [] stop)).2 = .ofTokens [] stop := by
  induction cs with
  | nil => exact ⟨rfl, rfl⟩
  | cons c cs ih =>
    obtain ⟨hstep, hleft⟩ := c.step_ended stop
    rw [runScan, run, hstep, hleft, ih.1]
    exact ⟨rfl, ih.2⟩

theorem ended_of_openString {cs : List Call} {s : Scan} {e : Failure}
    (h : .error e ∈ (runScan cs s).1) (he : e.IsOpenString) :
    ∃ stop, (runScan cs s).2 = .ofTokens [] stop := by
  induction cs generalizing s with
  | nil => cases h
  | cons c cs ih =>
    rcases List.mem_cons.1 h with hc | hcs
    · obtain ⟨s', hp, hleft⟩ := stepScan_error hc.symm
      have hs' : s'.Halted e := perform_lexical hp (.inr he)
      rw [Scan.afterFailure, if_pos ⟨hs', he⟩] at hleft
      obtain ⟨hrun, hlast⟩ := runScan_ended cs s'.stop
      rw [runScan, hleft, hrun]
      exact ⟨_, hlast⟩
    · exact ih hcs

def Looks : Call → Prop
  | peekToken | noTokens => True
  | _ => False

/-- The call takes the next token if it is the one asked for, and fails otherwise. -/
def Demands : Call → Prop
  | expectPunctuation _ | expectIdentifier | expectOperator _ | unexpected => True
  | _ => False

theorem stepScan_looks {c : Call} (hc : c.Looks) {s : Scan} {a : Answer}
    (h : (c.stepScan s).1 = .ok a) : (c.stepScan s).2 = s := by
  obtain ⟨_ | ⟨t, ts⟩, stop, _ | e⟩ := s <;> cases c <;>
    first | exact hc.elim | rfl | cases h

theorem map_error {σ α β : Type} {p : Parser σ α} {f : α → β} {s s' : σ} {e : Failure}
    (h : (f <$> p) s = .error e s') : p s = .error e s' := by
  rw [map_eq_pure_bind] at h
  exact (bind_error.1 h).resolve_right fun ⟨_, _, _, h⟩ => nomatch h

theorem expect_error {wanted : Lexeme → Bool} {cause : Cause} {s s' : Scan} {e : Failure}
    (h : expect wanted cause s = .error e s') : s' = s := by
  obtain ⟨_ | ⟨t, ts⟩, stop, _ | f⟩ := s
  · cases h
    rfl
  · cases h
    rfl
  all_goals
    rw [expect_cons] at h
    split at h <;> cases h
    rfl

theorem stepScan_demands {c : Call} (hc : c.Demands) {s : Scan} {e : Failure}
    (h : (c.stepScan s).1 = .error e) : (c.stepScan s).2.tokens = s.tokens := by
  obtain ⟨s', hp, hleft⟩ := stepScan_error h
  rw [hleft, Scan.tokens_afterFailure]
  cases c with
  | expectPunctuation text | expectIdentifier | expectOperator choices =>
    rw [expect_error (map_error hp)]
  | unexpected =>
    obtain ⟨_ | ⟨t, ts⟩, stop, _ | f⟩ := s <;> cases hp <;> rfl
  | _ => exact hc.elim

end Call

theorem SameAnswer.of_common {α : Type} {x y z : Except Failure α} (hy : SameAnswer x y)
    (hz : SameAnswer x z) : SameAnswer y z := by
  cases x with
  | ok a =>
    cases y with
    | error f => exact hy.elim
    | ok b =>
      obtain rfl : a = b := hy
      exact hz
  | error e =>
    cases y with
    | ok b => exact hy.elim
    | error f =>
      cases z with
      | ok b => exact hz.elim
      | error g =>
        rcases hy with rfl | ⟨he, hf⟩
        · exact hz
        · exact .inr ⟨hf, (SameFailure.tooDeep_iff hz).1 he⟩

theorem outcomes_of_common {xs ys zs : List Outcome} (hy : List.Forall₂ SameAnswer xs ys)
    (hz : List.Forall₂ SameAnswer xs zs) : List.Forall₂ SameAnswer ys zs := by
  induction hy generalizing zs with
  | nil =>
    cases hz
    exact .nil
  | cons hxy _ ih =>
    cases hz with
    | cons hxz hrest => exact .cons (hxy.of_common hxz) (ih hrest)

theorem mem_outcomes {xs ys : List Outcome} (h : List.Forall₂ SameAnswer xs ys) {e : Failure}
    (he : ¬ e.IsTooDeep) : .error e ∈ xs ↔ .error e ∈ ys := by
  induction h with
  | nil => rfl
  | cons hxy _ ih => rw [List.mem_cons, List.mem_cons, eq_comm, hxy.error_iff he, ih, eq_comm]

theorem outcomes_all {xs ys : List Outcome} (h : List.Forall₂ SameAnswer xs ys) {e : Failure}
    (he : ¬ e.IsTooDeep) (hx : ∀ o ∈ xs, o = .error e) : ∀ o ∈ ys, o = .error e := by
  induction h with
  | nil => exact nofun
  | cons hxy _ ih =>
    obtain ⟨hhead, htail⟩ := List.forall_mem_cons.1 hx
    exact List.forall_mem_cons.2 ⟨(hxy.error_iff he).1 hhead, ih htail⟩

/-- After any calls to a lexer and a parser of a text: what they have delivered, what they answer
next, and what a failure of the text itself leaves for later calls. -/
structure Delivery (source : List Char) (outcomes : List Outcome) (r : Recorder) : Prop where
  tokens : r.delivered ++ r.lexer.lookahead.toList ++ (Scan.ofCursor r.lexer.cursor).tokens =
    (Scan.ofChars source).tokens
  lookahead {t : Token} : r.lexer.lookahead = some t → ∃ before x behind,
    source = before ++ x ++ behind ∧ Spelling x t.lexeme ∧ t.lexeme.Ends x behind ∧
      t.position = Position.start.afterAll before ∧
      r.lexer.cursor = ⟨behind, (before ++ x).length, Position.start.afterAll (before ++ x)⟩
  demand {c : Call} {e : Failure} : c.Demands → (c.step r).1 = .error e →
    (c.step r).2.delivered = r.delivered
  look {c : Call} {a : Answer} : c.Looks → (c.step r.lexer).1 = .ok a → ∀ more : List Call,
    List.Forall₂ SameAnswer (Call.run more (c.step r.lexer).2).1 (Call.run more r.lexer).1
  illegal {e : Failure} : e.IsIllegal → .error e ∈ outcomes →
    ∀ more : List Call, ∀ o ∈ (Call.run more r.lexer).1, o = .error e
  openString {e : Failure} : e.IsOpenString → .error e ∈ outcomes → ∀ more : List Call,
    List.Forall₂ SameAnswer
      (Call.run more (Scan.ofTokens [] (Position.start.afterAll source))).1
      (Call.run more r.lexer).1

namespace Tracks

variable {source : List Char} {s : Scan} {r : Recorder} {c : Call} {e : Failure}

theorem demand (h : Tracks source s r) (hc : c.Demands) (he : (c.step r).1 = .error e) :
    (c.step r).2.delivered = r.delivered := by
  obtain ⟨hsame, hleft⟩ := c.step_tracks h
  rw [he] at hsame
  obtain ⟨f, hf, -⟩ := hsame.error_right
  have htokens := Call.stepScan_demands hc hf
  obtain ⟨n, -, -, hall⟩ := h
  obtain ⟨m, -, -, hall'⟩ := hleft
  rw [htokens, ← hall] at hall'
  exact List.append_cancel_right hall'

theorem look {a : Answer} (h : Tracks source s r) (hc : c.Looks)
    (ha : (c.step r.lexer).1 = .ok a) (more : List Call) :
    List.Forall₂ SameAnswer (Call.run more (c.step r.lexer).2).1 (Call.run more r.lexer).1 := by
  obtain ⟨hsame, hleft⟩ := c.step_tracks h
  rw [Call.step_lexer h] at ha ⊢
  rw [show (c.step r).1 = _ from ha] at hsame
  rw [Call.stepScan_looks hc hsame.ok_right] at hleft
  rw [Call.run_lexer hleft, Call.run_lexer h]
  exact outcomes_of_common (Call.run_tracks hleft more).1 (Call.run_tracks h more).1

theorem halted (h : Tracks source s r) (hs : s.Halted e) (he : e.IsIllegal) (more : List Call) :
    ∀ o ∈ (Call.run more r.lexer).1, o = .error e := by
  rw [Call.run_lexer h]
  exact outcomes_all (Call.run_tracks h more).1 (Failure.not_tooDeep (.inl he))
    (Call.runScan_halted hs he.not_openString more).1

theorem ended {stop : Position} (h : Tracks source (.ofTokens [] stop) r) (more : List Call) :
    List.Forall₂ SameAnswer
      (Call.run more (Scan.ofTokens [] (Position.start.afterAll source))).1
      (Call.run more r.lexer).1 := by
  rw [Call.run_lexer h, ← h.stop_eq, ← (Call.runScan_ended more stop).1]
  exact (Call.run_tracks h more).1

end Tracks

/-- Whatever is called and in whatever order, and whichever calls fail, the tokens of a text are
delivered once each and in their order. -/
theorem tokens_delivered (source : List Char) (calls : List Call) :
    Call.run calls (Lexer.ofChars source) =
        ((Call.run calls (Recorder.ofChars source)).1,
          (Call.run calls (Recorder.ofChars source)).2.lexer) ∧
      Delivery source (Call.run calls (Recorder.ofChars source)).1
        (Call.run calls (Recorder.ofChars source)).2 := by
  obtain ⟨hsame, htracks⟩ := Call.run_tracks (.fresh source) calls
  refine ⟨Call.run_lexer (.fresh source) calls, htracks.tokens, htracks.lookahead,
    htracks.demand, htracks.look, ?_, ?_⟩
  · intro e he hmem
    have hscan := (mem_outcomes hsame (Failure.not_tooDeep (.inl he))).2 hmem
    exact htracks.halted (Call.halted_of_illegal hscan he) he
  · intro e he hmem
    have hscan := (mem_outcomes hsame (Failure.not_tooDeep (.inr he))).2 hmem
    obtain ⟨stop, hstop⟩ := Call.ended_of_openString hscan he
    rw [hstop] at htracks
    exact htracks.ended

end RuleLang
