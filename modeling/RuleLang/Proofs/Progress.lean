import Mathlib.Tactic.Common
import RuleLang.Scan

/-!
Reading a token moves forward. A token takes a character or more, from the place that it bears,
and a failure is reported where the failing token would start. So the tokens of a text stand in
the order of their places, and before the place of the failure that ends them.
-/
namespace RuleLang

namespace Position

def Before (p q : Position) : Prop := p.line < q.line ∨ p.line = q.line ∧ p.column < q.column

def NotAfter (p q : Position) : Prop := p = q ∨ p.Before q

theorem Before.trans {p q r : Position} (h : p.Before q) (h' : q.Before r) : p.Before r := by
  unfold Before at *
  omega

theorem NotAfter.trans_before {p q r : Position} (h : p.NotAfter q) (h' : q.Before r) :
    p.Before r := by
  rcases h with rfl | h
  · exact h'
  · exact h.trans h'

theorem NotAfter.trans {p q r : Position} (h : p.NotAfter q) (h' : q.NotAfter r) :
    p.NotAfter r := by
  rcases h' with rfl | h'
  · exact h
  · exact .inr (h.trans_before h')

theorem before_after (p : Position) (c : Char) : p.Before (p.after c) := by
  unfold after Before
  split
  · left
    dsimp only
    omega
  · right
    dsimp only
    omega

theorem notAfter_afterAll (p : Position) (cs : List Char) : p.NotAfter (p.afterAll cs) := by
  induction cs generalizing p with
  | nil => exact .inl rfl
  | cons c cs ih => exact NotAfter.trans (.inr (p.before_after c)) (ih _)

theorem before_afterAll (p : Position) (c : Char) (cs : List Char) :
    p.Before (p.afterAll (c :: cs)) := by
  rcases notAfter_afterAll (p.after c) cs with h | h
  · rw [afterAll_cons, ← h]
    exact p.before_after c
  · exact (p.before_after c).trans h

end Position

namespace Cursor

theorem notAfter_advance (c : Cursor) (n : Nat) : c.position.NotAfter (c.advance n).position :=
  Position.notAfter_afterAll _ _

theorem before_advance {c : Cursor} {n : Nat} (hn : 0 < n) (hc : c.rest ≠ []) :
    c.position.Before (c.advance n).position := by
  obtain ⟨x, xs, hx⟩ := List.exists_cons_of_ne_nil hc
  obtain ⟨m, rfl⟩ : ∃ m, n = m + 1 := ⟨n - 1, by omega⟩
  simpa only [advance, hx, List.take_succ_cons] using Position.before_afterAll _ _ _

theorem shorter_advance {c : Cursor} {n : Nat} (hn : 0 < n) (hc : c.rest ≠ []) :
    (c.advance n).rest.length < c.rest.length := by
  have hl := List.length_pos_iff.2 hc
  rw [length_advance]
  omega

theorem end_advance {c : Cursor} {n : Nat} (h : (c.advance n).rest = []) :
    (c.advance n).position = c.position.afterAll c.rest := by
  have hn : c.rest.length ≤ n := List.drop_eq_nil_iff.1 h
  simp only [advance, List.take_of_length_le hn]

theorem afterAll_advance (c : Cursor) (n : Nat) :
    (c.advance n).position.afterAll (c.advance n).rest = c.position.afterAll c.rest := by
  simp only [advance, ← Position.afterAll_append, List.take_append_drop]

end Cursor

namespace Lexer

open Alphabet

theorem takeWhile_pos {p : Char → Bool} {c : Char} (cs : List Char) (h : p c) :
    0 < ((c :: cs).takeWhile p).length := by
  simp [h]

theorem numeralRun_pos {c : Char} (cs : List Char) (h : isDigit c) :
    0 < (numeralRun (c :: cs)).length := by
  have hw := takeWhile_pos cs h
  unfold numeralRun
  dsimp only
  split
  · exact hw
  · split
    · rw [List.length_append]
      omega
    · exact hw

theorem span_run {p : Char → Bool} (ds : List Char) (hds : ds.all p) (tail : List Char)
    (ht : ∀ c ∈ tail.head?, ¬ p c) :
    (ds ++ tail).takeWhile p = ds ∧ (ds ++ tail).dropWhile p = tail := by
  induction ds with
  | nil =>
    cases tail with
    | nil => simp
    | cons c cs => simp [ht c rfl]
  | cons d ds ih =>
    simp only [List.all_cons, Bool.and_eq_true] at hds
    simp [hds.1, ih hds.2]

theorem ofNumeral?_whole {ds : List Char} (hne : ds ≠ []) (hds : ds.all isDigit) :
    Decimal.ofNumeral? ds = some ⟨Decimal.ofDigits ds, 0⟩ := by
  have hs := span_run ds hds [] (by simp)
  rw [List.append_nil] at hs
  rw [Decimal.ofNumeral?, hs.1, hs.2]
  exact if_neg hne

theorem ofNumeral?_pointed {ds places : List Char} (hne : ds ≠ []) (hds : ds.all isDigit)
    (hps : places.all isDigit) :
    Decimal.ofNumeral? (ds ++ point :: places) =
      some ⟨Decimal.ofDigits (ds ++ places), -places.length⟩ := by
  have hs := span_run ds hds (point :: places) (by simp [isDigit, digits, point])
  rw [Decimal.ofNumeral?, hs.1, hs.2]
  exact if_pos ⟨rfl, hps, by simp [hne]⟩

theorem ofNumeral?_numeralRun {c : Char} (cs : List Char) (h : isDigit c) :
    (Decimal.ofNumeral? (numeralRun (c :: cs))).isSome := by
  have hne := List.length_pos_iff.1 (takeWhile_pos cs h)
  have hall : ((c :: cs).takeWhile isDigit).all isDigit := List.all_takeWhile
  have hwhole : (Decimal.ofNumeral? ((c :: cs).takeWhile isDigit)).isSome := by
    rw [ofNumeral?_whole hne hall]
    rfl
  unfold numeralRun
  dsimp only
  split
  · exact hwhole
  · split
    · next d rest _ hpoint =>
      rw [hpoint, ofNumeral?_pointed hne hall List.all_takeWhile]
      rfl
    · exact hwhole

theorem map_run {α β : Type} (f : α → β) (r : Reading α) (c : Cursor) :
    (f <$> r) c = match r c with
      | .ok a c' => .ok (f a) c'
      | .error e c' => .error e c' := by
  simp only [Functor.map, EStateM.map]
  cases r c <;> rfl

theorem skip_bind {α : Type} (n : Nat) (r : Reading α) (c : Cursor) :
    (skip n >>= fun _ => r) c = r (c.advance n) := rfl

theorem readLexeme_outcome {c : Cursor} {first : Char} {rest : List Char}
    (hc : c.rest = first :: rest) (p : Position) :
    (∃ x n, 0 < n ∧ readLexeme p first c = .ok x (c.advance n)) ∨
      ∃ cause c', readLexeme p first c = .error (.malformed ⟨p, cause⟩) c' := by
  unfold readLexeme
  split_ifs with hq hd hi hp ho
  · rw [skip_bind, map_run, readString_eq]
    cases stringRun? false (c.advance 1).rest with
    | none => exact .inr ⟨_, _, rfl⟩
    | some r => exact .inl ⟨_, 1 + r.2, by omega, by rw [← Cursor.advance_advance]⟩
  · have hn := numeralRun_pos rest hd
    obtain ⟨d, hs⟩ := Option.isSome_iff_exists.1 (ofNumeral?_numeralRun rest hd)
    rw [← hc] at hn hs
    refine .inl ⟨.number (.ofDecimal false d), _, hn, ?_⟩
    rw [map_run, readNumber_eq]
    simp only [hs]
  · have hl := takeWhile_pos rest (isIdentifierChar_of_start hi)
    rw [← hc] at hl
    exact .inl ⟨_, _, hl, rfl⟩
  · exact .inl ⟨_, 1, Nat.one_pos, rfl⟩
  · have hl := takeWhile_pos rest ho
    rw [← hc] at hl
    exact .inl ⟨_, _, hl, rfl⟩
  · exact .inr ⟨_, _, rfl⟩

theorem readToken_outcome (c : Cursor) :
    let gap := c.advance (gapLength false c.rest)
    (gap.rest = [] ∧ readToken c = .ok none gap) ∨
    (gap.rest ≠ [] ∧ ∃ x n, 0 < n ∧
      readToken c = .ok (some ⟨x, gap.position⟩) (gap.advance n)) ∨
    ∃ cause c', readToken c = .error (.malformed ⟨gap.position, cause⟩) c' := by
  intro gap
  have hr := readToken_eq c
  dsimp only at hr
  rw [show c.advance (gapLength false c.rest) = gap from rfl] at hr
  cases hg : gap.rest with
  | nil =>
    rw [hg] at hr
    exact .inl ⟨rfl, hr⟩
  | cons first rest =>
    rw [hg] at hr
    rcases readLexeme_outcome hg gap.position with ⟨x, n, hn, hx⟩ | ⟨cause, c', hx⟩
    · simp only [hx] at hr
      exact .inr (.inl ⟨by simp, x, n, hn, hr⟩)
    · simp only [hx] at hr
      exact .inr (.inr ⟨cause, c', hr⟩)

theorem readToken_none {c c' : Cursor} (h : readToken c = .ok none c') :
    c'.rest = [] ∧ c'.position = c.position.afterAll c.rest := by
  rcases readToken_outcome c with ⟨he, hr⟩ | ⟨_, x, n, _, hr⟩ | ⟨cause, m, hr⟩
  · obtain ⟨_, rfl⟩ := EStateM.Result.ok.inj (h.symm.trans hr)
    exact ⟨he, Cursor.end_advance he⟩
  · cases h.symm.trans hr
  · cases h.symm.trans hr

theorem readToken_some {c c' : Cursor} {t : Token} (h : readToken c = .ok (some t) c') :
    c'.rest.length < c.rest.length ∧ c.position.NotAfter t.position ∧
      t.position.Before c'.position ∧
      c'.position.afterAll c'.rest = c.position.afterAll c.rest := by
  rcases readToken_outcome c with ⟨_, hr⟩ | ⟨hne, x, n, hn, hr⟩ | ⟨cause, m, hr⟩
  · cases h.symm.trans hr
  · obtain ⟨ht, rfl⟩ := EStateM.Result.ok.inj (h.symm.trans hr)
    obtain rfl := Option.some.inj ht
    have hl := Cursor.shorter_advance hn hne
    have hg := c.length_advance (gapLength false c.rest)
    refine ⟨by omega, c.notAfter_advance _, Cursor.before_advance hn hne, ?_⟩
    rw [Cursor.afterAll_advance, Cursor.afterAll_advance]
  · cases h.symm.trans hr

theorem readToken_error {c c' : Cursor} {e : Failure} (h : readToken c = .error e c') :
    ∃ p cause, e = .malformed ⟨p, cause⟩ ∧ c.position.NotAfter p := by
  rcases readToken_outcome c with ⟨_, hr⟩ | ⟨_, x, n, _, hr⟩ | ⟨cause, m, hr⟩
  · cases h.symm.trans hr
  · cases h.symm.trans hr
  · obtain ⟨rfl, _⟩ := EStateM.Result.error.inj (h.symm.trans hr)
    exact ⟨_, cause, rfl, c.notAfter_advance _⟩

/-- Each token leaves a shorter text, so tokens can be taken up one by one. -/
theorem readToken_induction {motive : Cursor → Prop}
    (step : ∀ c, (∀ t c', readToken c = .ok (some t) c' → motive c') → motive c) (c : Cursor) :
    motive c := by
  induction hn : c.rest.length using Nat.strongRecOn generalizing c with
  | ind n ih =>
    apply step
    intro t c' h
    have hl := (readToken_some h).1
    exact ih _ (by omega) c' rfl

end Lexer

namespace Scan

open Lexer

theorem upTo_rounds {c : Cursor} {m n : Nat} (hm : c.rest.length < m) (hn : c.rest.length < n) :
    upTo m c = upTo n c := by
  induction m generalizing n c with
  | zero => omega
  | succ m ih =>
    obtain ⟨n, rfl⟩ : ∃ k, n = k + 1 := ⟨n - 1, by omega⟩
    simp only [upTo]
    split
    · rfl
    · next t c' h =>
      have hl := (readToken_some h).1
      exact congrArg (cons t) (ih (by omega) (by omega))
    · rfl

theorem ofCursor_none {c c' : Cursor} (h : readToken c = .ok none c') :
    ofCursor c = ⟨[], c'.position, none⟩ := by
  simp only [ofCursor, upTo, h]

theorem ofCursor_some {c c' : Cursor} {t : Token} (h : readToken c = .ok (some t) c') :
    ofCursor c = (ofCursor c').cons t := by
  have hl := (readToken_some h).1
  rw [ofCursor, upTo, h]
  exact congrArg (cons t) (upTo_rounds hl (Nat.lt_succ_self _))

theorem ofCursor_error {c c' : Cursor} {e : Failure} (h : readToken c = .error e c') :
    ofCursor c = ⟨[], c'.position, some e⟩ := by
  simp only [ofCursor, upTo, h]

theorem length_ofCursor (c : Cursor) : (ofCursor c).tokens.length ≤ c.rest.length := by
  induction c using readToken_induction with
  | step c ih =>
    cases h : readToken c with
    | ok t c' =>
      cases t with
      | none => simp [ofCursor_none h]
      | some t =>
        have hl := (readToken_some h).1
        have hc := ih t c' h
        rw [ofCursor_some h]
        simp only [cons, List.length_cons]
        omega
    | error e c' => simp [ofCursor_error h]

theorem stop_ofCursor {c : Cursor} (hf : (ofCursor c).failure = none) :
    (ofCursor c).stop = c.position.afterAll c.rest := by
  induction c using readToken_induction with
  | step c ih =>
    cases h : readToken c with
    | ok t c' =>
      cases t with
      | none =>
        rw [ofCursor_none h]
        exact (readToken_none h).2
      | some t =>
        rw [ofCursor_some h] at hf ⊢
        exact (ih t c' h hf).trans (readToken_some h).2.2.2
    | error e c' => simp [ofCursor_error h] at hf

theorem failure_ofCursor {c : Cursor} {e : Failure} (hf : (ofCursor c).failure = some e) :
    ∃ p cause, e = .malformed ⟨p, cause⟩ ∧ c.position.NotAfter p ∧
      ∀ t ∈ (ofCursor c).tokens, t.position.Before p := by
  induction c using readToken_induction with
  | step c ih =>
    cases h : readToken c with
    | ok t c' =>
      cases t with
      | none => simp [ofCursor_none h] at hf
      | some t =>
        obtain ⟨_, hct, htc, _⟩ := readToken_some h
        rw [ofCursor_some h] at hf ⊢
        obtain ⟨p, cause, he, hp, hts⟩ := ih t c' h hf
        have htp : t.position.Before p := by
          rcases hp with rfl | hp
          · exact htc
          · exact htc.trans hp
        refine ⟨p, cause, he, .inr (hct.trans_before htp), ?_⟩
        simpa [cons] using ⟨htp, hts⟩
    | error e' c' =>
      obtain ⟨p, cause, rfl, hp⟩ := readToken_error h
      rw [ofCursor_error h] at hf ⊢
      obtain rfl := Option.some.inj hf
      exact ⟨p, cause, rfl, hp, by simp⟩

theorem ordered_ofCursor (c : Cursor) :
    (∀ t ∈ (ofCursor c).tokens, c.position.NotAfter t.position) ∧
      (ofCursor c).tokens.Pairwise fun t u => t.position.Before u.position := by
  induction c using readToken_induction with
  | step c ih =>
    cases h : readToken c with
    | ok t c' =>
      cases t with
      | none => simp [ofCursor_none h]
      | some t =>
        obtain ⟨_, hct, htc, _⟩ := readToken_some h
        obtain ⟨hafter, hordered⟩ := ih t c' h
        have hbefore : ∀ u ∈ (ofCursor c').tokens, t.position.Before u.position := by
          intro u hu
          rcases hafter u hu with hp | hp
          · exact hp ▸ htc
          · exact htc.trans hp
        rw [ofCursor_some h]
        refine ⟨List.forall_mem_cons.2 ⟨hct, fun u hu => ?_⟩, .cons hbefore hordered⟩
        exact .inr (hct.trans_before (hbefore u hu))
    | error e c' => simp [ofCursor_error h]

end Scan

end RuleLang
