import RuleLang.Proofs.Lookahead
import RuleLang.Proofs.Progress

/-!
Reading on demand. A lexer delivers the scan of the text behind its cursor, after the token that
it has read ahead if there is one. Looking ahead does not change what it delivers, so a program
is read alike from the text and from the finished list of its tokens; if the text breaks off, it
is refused there, or before that by the tokens alone.
-/
namespace RuleLang

open RuleLang.Parser

def Lexer.scan (l : Lexer) : Scan :=
  match l.lookahead with
  | none => .ofCursor l.cursor
  | some t => (Scan.ofCursor l.cursor).cons t

namespace Lexer

theorem scan_ofChars (source : List Char) : (ofChars source).scan = .ofChars source := rfl

theorem peek_eq (c : Cursor) : peek ⟨c, none⟩ = match readToken c with
    | .ok t c' => .ok t ⟨c', t⟩
    | .error e c' => .error e ⟨c', none⟩ := by
  change (reading readToken >>= fun t => modify (fun l => ⟨l.cursor, t⟩) >>= fun _ => pure t)
    (⟨c, none⟩ : Lexer) = _
  simp only [bind, EStateM.bind, reading]
  cases readToken c <;> rfl

theorem next_eq (c : Cursor) : next ⟨c, none⟩ = match readToken c with
    | .ok t c' => .ok t ⟨c', none⟩
    | .error e c' => .error e ⟨c', none⟩ := by
  change reading readToken (⟨c, none⟩ : Lexer) = _
  simp only [reading]
  cases readToken c <;> rfl

theorem gap_nil {c : Cursor} (h : c.rest = []) : c.advance (gapLength false c.rest) = c :=
  Cursor.advance_of_atEnd h _

theorem ofCursor_end {c : Cursor} (h : c.rest = []) :
    Scan.ofCursor c = ⟨[], c.position, none⟩ := by
  have hr := readToken_eq c
  rw [gap_nil h] at hr
  simp only [h] at hr
  exact Scan.ofCursor_none hr

end Lexer

/-- A scan and a lexer that deliver the same, and report errors in the same place once the next
token was looked at. -/
def InStep (ready : Bool) (s : Scan) (l : Lexer) : Prop :=
  s = l.scan ∧ (ready = true → s.here = l.here)

/-- Equal failures, or two refusals to read more deeply. -/
def SameFailure (e f : Failure) : Prop := e = f ∨ e.IsTooDeep ∧ f.IsTooDeep

theorem SameFailure.tooDeep_iff {e f : Failure} (h : SameFailure e f) :
    e.IsTooDeep ↔ f.IsTooDeep := by
  rcases h with rfl | ⟨he, hf⟩
  · rfl
  · exact iff_of_true he hf

namespace InStep

variable {ready : Bool} {s : Scan} {l : Lexer}

theorem peek_agree (h : InStep ready s l) :
    Agree (Option.Rel (Correspondence.within fun _ => True).token) (InStep true)
      (fun e f _ _ => SameFailure e f) (Scan.peek s) (Lexer.peek l) := by
  obtain ⟨rfl, _⟩ := h
  obtain ⟨c, _ | t⟩ := l
  · rw [Lexer.peek_eq]
    cases hr : Lexer.readToken c with
    | ok t c' =>
      cases t with
      | none =>
        rw [Lexer.scan, Scan.ofCursor_none hr]
        exact ⟨.none, (Lexer.ofCursor_end (Lexer.readToken_none hr).1).symm, fun _ => rfl⟩
      | some t =>
        rw [Lexer.scan, Scan.ofCursor_some hr]
        exact ⟨.some ⟨rfl, trivial⟩, rfl, fun _ => rfl⟩
    | error e c' =>
      rw [Lexer.scan, Scan.ofCursor_error hr]
      exact .inr (.inl rfl)
  · exact ⟨.some ⟨rfl, trivial⟩, rfl, fun _ => rfl⟩

theorem next_agree (h : InStep ready s l) :
    Agree (Option.Rel (Correspondence.within fun _ => True).token) (InStep false)
      (fun e f _ _ => SameFailure e f) (Scan.next s) (Lexer.next l) := by
  obtain ⟨rfl, _⟩ := h
  obtain ⟨c, _ | t⟩ := l
  · rw [Lexer.next_eq]
    cases hr : Lexer.readToken c with
    | ok t c' =>
      cases t with
      | none =>
        rw [Lexer.scan, Scan.ofCursor_none hr]
        exact ⟨.none, (Lexer.ofCursor_end (Lexer.readToken_none hr).1).symm, nofun⟩
      | some t =>
        rw [Lexer.scan, Scan.ofCursor_some hr]
        exact ⟨.some ⟨rfl, trivial⟩, rfl, nofun⟩
    | error e c' =>
      rw [Lexer.scan, Scan.ofCursor_error hr]
      exact .inr (.inl rfl)
  · exact ⟨.some ⟨rfl, trivial⟩, rfl, nofun⟩

end InStep

def Simulation.onDemand : Simulation (.within fun _ => True) Scan Lexer where
  state := InStep
  stopped e f _ _ := SameFailure e f
  forget h := ⟨h.1, nofun⟩
  peek h := h.peek_agree
  next h := h.next_agree
  fail h hxy _ := by
    have hh := h.2 rfl
    rw [Cause.eq_of_matches hxy]
    exact .inl (congrArg (fun p => Failure.malformed ⟨p, _⟩) hh)
  refuse _ hxy hab := by
    obtain ⟨rfl, _⟩ := hxy
    cases hab
    exact .inl rfl
  tooDeep _ := .inr ⟨rfl, rfl⟩

theorem Lexer.failure_scan (l : Lexer) : l.scan.failure ≠ some .exhausted := by
  intro h
  obtain ⟨p, cause, he, _⟩ := Scan.failure_ofCursor (c := l.cursor) (by
    obtain ⟨c, _ | t⟩ := l <;> exact h)
  cases he

theorem Lexer.size_scan_le (l : Lexer) : TokenSource.size l.scan ≤ TokenSource.size l := by
  obtain ⟨c, _ | t⟩ := l
  · exact Scan.length_ofCursor c
  · exact Nat.succ_le_succ (Scan.length_ofCursor c)

theorem Parser.Lockstep.onDemand {α β : Type} {V : α → β → Prop} {p : Parser Scan α}
    {q : Parser Lexer β} (h : Lockstep (.within fun _ => True) Scan Lexer false V p q) {l : Lexer}
    (hx : ∀ s, p l.scan ≠ .error .exhausted s) :
    (∃ a b l', p l.scan = .ok a l'.scan ∧ q l = .ok b l' ∧ V a b) ∨
      ∃ e s f l', p l.scan = .error e s ∧ q l = .error f l' ∧ SameFailure e f := by
  have hagree : Agree _ _ _ (p l.scan) (q l) :=
    Simulation.onDemand.run h ⟨rfl, fun hr => absurd hr Bool.false_ne_true⟩
  rcases hagree.outcomes hx with ⟨a, s, b, l', hp, hq, hab, rfl, _⟩ | ⟨e, s, f, l', hp, hq, hef⟩
  · exact .inl ⟨a, b, l', hp, hq, hab⟩
  · exact .inr ⟨e, s, f, l', hp, hq, hef⟩

theorem Scan.failure_ofChars (source : List Char) :
    (Scan.ofChars source).failure ≠ some .exhausted := (Lexer.ofChars source).failure_scan

theorem Scan.failure_ofTokens (ts : List Token) (stop : Position) (e : Failure) :
    (Scan.ofTokens ts stop).failure ≠ some e := by
  intro h
  cases h

namespace Parser

theorem statements_ok_end {statement : Parser Scan Node} {rounds : Nat} {s s' : Scan}
    {nodes : List Node} (h : statements statement rounds s = .ok nodes s') :
    s'.tokens = [] ∧ s'.failure = none := by
  induction rounds generalizing s nodes with
  | zero => cases h
  | succ rounds ih =>
    have rest_end {node : Node} {s : Scan} (h : (do
        let nodes ← statements statement rounds
        return node :: nodes : Parser Scan (List Node)) s = .ok nodes s') :
        s'.tokens = [] ∧ s'.failure = none := by
      obtain ⟨nodes, m, hm, hs⟩ := bind_ok.1 h
      obtain ⟨_, rfl⟩ := EStateM.Result.ok.inj hs
      exact ih hm
    rw [statements_succ] at h
    obtain ⟨t, m, hm, h⟩ := bind_ok.1 h
    split at h
    · next ht =>
      obtain ⟨_, rfl⟩ := EStateM.Result.ok.inj h
      obtain ⟨ts, stop, e⟩ := s
      cases ts with
      | cons u ts =>
        obtain ⟨rfl, _⟩ := EStateM.Result.ok.inj hm
        cases ht
      | nil =>
        cases e with
        | none =>
          obtain ⟨_, rfl⟩ := EStateM.Result.ok.inj hm
          exact ⟨rfl, rfl⟩
        | some x => cases hm
    · obtain ⟨node, m', _, h⟩ := bind_ok.1 h
      obtain ⟨u, m'', _, h⟩ := bind_ok.1 h
      split at h
      · exact rest_end h
      · obtain ⟨_, m''', _, h⟩ := bind_ok.1 h
        exact rest_end h

theorem program_not_exhausted {s s' : Scan} (he : s.failure ≠ some .exhausted) (limit : Nat) :
    program limit s ≠ .error .exhausted s' :=
  statements_not_exhausted (Nat.lt_succ_self _) he limit

theorem program_ok_end {limit : Nat} {s s' : Scan} {nodes : List Node}
    (h : program limit s = .ok nodes s') : s.failure = none ∧ s' = .ofTokens [] s.stop := by
  have hl : Lockstep (.within fun _ => True) Scan Scan false _ _ _ :=
    program_lockstep (Nat.le_refl (s.tokens.length + 1)) limit
  have hsober := hl.sober (s := s) (fun _ _ => trivial) nofun
  have hrun : statements (level (s.tokens.length + 1) limit).expression (s.tokens.length + 1) s =
      .ok nodes s' := h
  rw [hrun] at hsober
  obtain ⟨_, used, rfl⟩ := hsober
  obtain ⟨ht, hf⟩ := statements_ok_end hrun
  exact ⟨hf, by rw [Scan.ofTokens, ← ht, ← hf]; rfl⟩

/-- A refusal holds for every scan that begins with the tokens taken and the one refused. -/
theorem program_replay {limit : Nat} {s left : Scan} {f : Failure}
    (he : s.failure ≠ some .exhausted) (h : program limit s = .error f left)
    (hd : ¬ f.IsTooDeep) (hf : s.failure ≠ some f) :
    ∃ used, s = left.behind used ∧
      Excuse (fun p => ∃ t ∈ s.tokens, t.position = p) s left f ∧
      ∀ other : Scan, other.failure ≠ some .exhausted →
        SameHead left.tokens other.tokens ∨ f.IsDuplicate →
        program limit (other.behind used) = .error f other := by
  have hlock {rounds : Nat} (hr : s.tokens.length + 1 ≤ rounds) :
      Lockstep (.within fun p => ∃ t ∈ s.tokens, t.position = p) Scan Scan false _ _ _ :=
    program_lockstep hr limit
  have hs : ∀ t ∈ s.tokens, ∃ u ∈ s.tokens, u.position = t.position := fun t ht => ⟨t, ht, rfl⟩
  have hsober := (hlock (Nat.le_refl _)).sober hs nofun
  have hrun : statements (level (s.tokens.length + 1) limit).expression (s.tokens.length + 1) s =
      .error f left := h
  rw [hrun] at hsober
  obtain ⟨⟨used, rfl⟩, hx⟩ := hsober
  refine ⟨used, rfl, hx, fun other hother ho => ?_⟩
  have hused (hdup : f.IsDuplicate) : used ≠ [] := hx.used_ne_nil hdup hf
  have hne : f ≠ .exhausted := fun h' => program_not_exhausted he limit (h' ▸ h)
  -- with rounds for either list of tokens the two runs can be compared
  have hmost := (hlock (Nat.le_max_left _ ((other.behind used).tokens.length + 1))).replay used left
    hs nofun
  rw [hrun] at hmost
  have hsame := statements_rounds (s := other.behind used) (Nat.lt_succ_self _)
    (Nat.le_max_right ((left.behind used).tokens.length + 1) _) hother limit
  exact hsame.trans (hmost rfl hne hd hf other (ho.imp_right fun hdup => ⟨hdup, hused hdup⟩))

theorem program_agree (limit : Nat) (source : List Char) :
    match program limit (Scan.ofChars source), program limit (Lexer.ofChars source) with
    | .ok nodes s, .ok nodes' l => nodes = nodes' ∧ s = l.scan
    | .error e _, .error f _ => SameFailure e f
    | _, _ => False := by
  have hlock : Lockstep (.within fun _ => True) Scan Lexer false _ _ _ :=
    program_lockstep (Nat.succ_le_succ (Lexer.ofChars source).size_scan_le) limit
  have hx (s : Scan) : program limit (Lexer.ofChars source).scan ≠ .error .exhausted s :=
    program_not_exhausted (Scan.failure_ofChars source) limit
  rcases hlock.onDemand hx with ⟨nodes, nodes', l, hs, hl, hnodes⟩ | ⟨e, s, f, l, hs, hl, hef⟩
  · rw [show program limit (Scan.ofChars source) = _ from hs,
      show program limit (Lexer.ofChars source) = _ from hl]
    exact ⟨Node.eq_of_matchesAll (Node.matchesAll_iff.2 hnodes), rfl⟩
  · rw [show program limit (Scan.ofChars source) = _ from hs,
      show program limit (Lexer.ofChars source) = _ from hl]
    exact hef

end Parser

def SameAnswer {α : Type} : Except Failure α → Except Failure α → Prop
  | .ok a, .ok b => a = b
  | .error e, .error f => SameFailure e f
  | _, _ => False

theorem SameAnswer.ok_right {α : Type} {x : Except Failure α} {b : α}
    (h : SameAnswer x (.ok b)) : x = .ok b := by
  cases x with
  | ok a => exact congrArg Except.ok h
  | error f => exact h.elim

theorem SameAnswer.error_right {α : Type} {x : Except Failure α} {g : Failure}
    (h : SameAnswer x (.error g)) : ∃ f, x = .error f ∧ SameFailure f g := by
  cases x with
  | ok a => exact h.elim
  | error f => exact ⟨f, rfl, h⟩

theorem SameAnswer.error_iff {α : Type} {x y : Except Failure α} {f : Failure}
    (h : SameAnswer x y) (hd : ¬ f.IsTooDeep) : x = .error f ↔ y = .error f := by
  constructor
  · intro hx
    subst hx
    cases y with
    | ok b => exact h.elim
    | error g => exact congrArg _ (h.resolve_right fun hboth => hd hboth.1).symm
  · intro hy
    subst hy
    obtain ⟨g, hg, hsame⟩ := h.error_right
    rw [hg, hsame.resolve_right fun hboth => hd hboth.2]

theorem Scan.parse_error {s : Scan} {f : Failure} :
    s.parse = .error f ↔ ∃ left, Parser.program nestingLimit s = .error f left := by
  unfold Scan.parse
  cases Parser.program nestingLimit s <;> simp

theorem parse_ok_iff {source : List Char} {nodes : List Node} :
    parse source = .ok nodes ↔
      ∃ l, Parser.program nestingLimit (Lexer.ofChars source) = .ok nodes l := by
  unfold parse
  cases Parser.program nestingLimit (Lexer.ofChars source) <;> simp

theorem parse_agree (source : List Char) :
    SameAnswer (parse source) (Scan.ofChars source).parse := by
  have h := program_agree nestingLimit source
  unfold parse Scan.parse
  cases hs : Parser.program nestingLimit (Scan.ofChars source) with
  | ok nodes s =>
    cases hl : Parser.program nestingLimit (Lexer.ofChars source) with
    | ok nodes' l =>
      rw [hs, hl] at h
      exact h.1.symm
    | error f l =>
      rw [hs, hl] at h
      exact h
  | error e s =>
    cases hl : Parser.program nestingLimit (Lexer.ofChars source) with
    | ok nodes' l =>
      rw [hs, hl] at h
      exact h
    | error f l =>
      rw [hs, hl] at h
      exact h.imp Eq.symm And.symm

theorem ofChars_of_tokenize {source : List Char} {ts : List Token} (h : tokenize source = .ok ts) :
    Scan.ofChars source = .ofTokens ts (Position.start.afterAll source) := by
  have hf : (Scan.ofChars source).failure = none := by
    cases hf : (Scan.ofChars source).failure with
    | none => rfl
    | some e => simp [tokenize, Scan.result, hf] at h
  have ht : (Scan.ofChars source).tokens = ts := by
    simpa [tokenize, Scan.result, hf] using h
  have hstop : (Scan.ofChars source).stop = Position.start.afterAll source :=
    Scan.stop_ofCursor hf
  rw [← ht, ← hstop, Scan.ofTokens, ← hf]

theorem failure_of_tokenize {source : List Char} {e : Failure} (h : tokenize source = .error e) :
    (Scan.ofChars source).failure = some e := by
  unfold tokenize Scan.result at h
  split at h
  · cases h
  · next hf =>
    cases h
    exact hf

theorem refused_by_tokens {s left : Scan} {f : Failure} {p : Position} {cause : Cause}
    (h : Parser.program nestingLimit s = .error f left)
    (hs : s.failure = some (.malformed ⟨p, cause⟩)) (hd : ¬ f.IsTooDeep)
    (hf : f ≠ .malformed ⟨p, cause⟩) (hbefore : ∀ t ∈ s.tokens, t.position.Before p) :
    ∃ x y, f = .malformed x ∧ Failure.malformed ⟨p, cause⟩ = .malformed y ∧
      x.position.Before y.position ∧
      ∀ more stop, (Scan.ofTokens (s.tokens ++ more) stop).parse = .error f := by
  have he : s.failure ≠ some .exhausted := by simp [hs]
  have hne : s.failure ≠ some f := by
    rw [hs]
    exact fun h => hf (Option.some.inj h).symm
  obtain ⟨used, rfl, hx, hreplay⟩ := program_replay he h hd hne
  have hmore (ho : left.tokens ≠ [] ∨ f.IsDuplicate) (more : List Token) (stop : Position) :
      (Scan.ofTokens ((left.behind used).tokens ++ more) stop).parse = .error f := by
    have hsame : SameHead left.tokens (left.tokens ++ more) ∨ f.IsDuplicate := by
      refine ho.imp_left fun hl => ?_
      simpa using sameHead_append hl [] more
    have hsplit : Scan.ofTokens ((left.behind used).tokens ++ more) stop =
        (Scan.ofTokens (left.tokens ++ more) stop).behind used := by
      simp [Scan.behind, Scan.ofTokens]
    rw [hsplit]
    exact Scan.parse_error.2 ⟨_, hreplay _ (Scan.failure_ofTokens _ _ _) hsame⟩
  -- the next token is refused, or a parameter among those taken: either stands before the break
  cases hx with
  | exhausted => exact absurd h (program_not_exhausted he nestingLimit)
  | tooDeep q => exact absurd rfl hd
  | lexical h => exact absurd h hne
  | @refused x hdup hl =>
    have hne : left.tokens ≠ [] := hl.resolve_right fun hl => by
      rw [show left.failure = _ from hs] at hl
      cases hl
    refine ⟨⟨_, x⟩, _, rfl, rfl, ?_, hmore (.inl hne)⟩
    obtain ⟨ts, stop, e⟩ := left
    cases ts with
    | nil => exact absurd rfl hne
    | cons t ts => exact hbefore t (List.mem_append_right used (List.mem_cons_self ..))
  | @repeated q a hlt hq =>
    obtain ⟨t, ht, rfl⟩ := hq
    exact ⟨_, _, rfl, rfl, hbefore t ht, hmore (.inr ⟨a, rfl⟩)⟩

theorem parse_broken {source : List Char} {e : Failure} (h : tokenize source = .error e) :
    ∃ f, parse source = .error f ∧ (f = e ∨ f.IsTooDeep ∨
      ∃ x y, f = .malformed x ∧ e = .malformed y ∧ x.position.Before y.position ∧
        ∀ more stop,
          (Scan.ofTokens ((Scan.ofChars source).tokens ++ more) stop).parse = .error f) := by
  have hfail := failure_of_tokenize h
  obtain ⟨p, cause, rfl, _, hbefore⟩ := Scan.failure_ofCursor hfail
  have ha := parse_agree source
  cases hs : Parser.program nestingLimit (Scan.ofChars source) with
  | ok nodes s => simp [(program_ok_end hs).1] at hfail
  | error g left =>
    rw [Scan.parse_error.2 ⟨left, hs⟩] at ha
    obtain ⟨f, hf, hsame⟩ := ha.error_right
    refine ⟨f, hf, ?_⟩
    by_cases hd : f.IsTooDeep
    · exact .inr (.inl hd)
    · obtain rfl := hsame.resolve_right fun hboth => hd hboth.1
      by_cases he : f = .malformed ⟨p, cause⟩
      · exact .inl he
      · exact .inr (.inr (refused_by_tokens hs hfail hd he hbefore))

/-- Reading on demand changes nothing. A text without lexical errors is read like the finished
list of its tokens, and one with a lexical error is refused, with that error or with one that its
tokens have before it. A text that is read is read to its end. -/
theorem parse_on_demand (source : List Char) :
    (∀ ts, tokenize source = .ok ts →
      SameAnswer (parse source)
        (Scan.ofTokens ts (Position.start.afterAll source)).parse) ∧
    (∀ e, tokenize source = .error e → ∃ f, parse source = .error f ∧ (f = e ∨ f.IsTooDeep ∨
      ∃ x y, f = .malformed x ∧ e = .malformed y ∧ x.position.Before y.position ∧
        ∀ more stop,
          (Scan.ofTokens ((Scan.ofChars source).tokens ++ more) stop).parse = .error f)) ∧
    (∀ nodes, parse source = .ok nodes → ∃ ts l, tokenize source = .ok ts ∧
      Parser.program nestingLimit (Lexer.ofChars source) = .ok nodes l ∧
      l.scan = .ofTokens [] (Position.start.afterAll source)) := by
  refine ⟨fun ts h => ?_, fun e h => parse_broken h, fun nodes h => ?_⟩
  · rw [← ofChars_of_tokenize h]
    exact parse_agree source
  · obtain ⟨l, hl⟩ := parse_ok_iff.1 h
    have ha := program_agree nestingLimit source
    rw [hl] at ha
    cases hs : Parser.program nestingLimit (Scan.ofChars source) with
    | error e s =>
      rw [hs] at ha
      exact ha.elim
    | ok nodes' s =>
      rw [hs] at ha
      obtain ⟨rfl, rfl⟩ := ha
      obtain ⟨hf, hend⟩ := program_ok_end hs
      have ht : tokenize source = .ok (Scan.ofChars source).tokens := by
        simp [tokenize, Scan.result, hf]
      refine ⟨_, l, ht, hl, ?_⟩
      rw [hend, ofChars_of_tokenize ht]
      rfl

end RuleLang
