import RuleLang.Proofs.Binding
import RuleLang.Proofs.NextToken

/-!
Where a lexer stands. Whether the next token was looked at makes no difference to what a lexer
answers, nor to what it is afterwards; and a character that starts nothing is refused as often as
it is met. So a lexer stands at a place of the text that its answers alone decide, behind the
tokens that it has delivered.
-/
namespace RuleLang

open RuleLang.Parser

namespace Lexer

/-- The tokens to be delivered are those behind the cursor, though the first of them, or the
failure in place of it, may have been met before. -/
inductive At (c : Cursor) : Lexer → Prop
  | fresh : At c ⟨c, none⟩
  | looked {t : Option Token} {c' : Cursor} : readToken c = .ok t c' → At c ⟨c', t⟩
  | stuck {e : Failure} {c' : Cursor} : readToken c = .error e c' → readToken c' = .error e c' →
    At c ⟨c', none⟩

namespace At

variable {c : Cursor} {l : Lexer}

theorem peek (h : At c l) : Lexer.peek l = Lexer.peek ⟨c, none⟩ := by
  cases h with
  | fresh => rfl
  | @looked t c' hr =>
    rw [peek_eq c, hr]
    cases t with
    | none => rw [peek_eq, readToken_end hr]
    | some t => rfl
  | stuck hr hr' => rw [peek_eq, peek_eq, hr, hr']

theorem next (h : At c l) : Lexer.next l = Lexer.next ⟨c, none⟩ := by
  cases h with
  | fresh => rfl
  | @looked t c' hr =>
    rw [next_eq c, hr]
    cases t with
    | none => rw [next_eq, readToken_end hr]
    | some t => rfl
  | stuck hr hr' => rw [next_eq, next_eq, hr, hr']

theorem scan (h : At c l) : l.scan = .ofCursor c := by
  cases h with
  | fresh => rfl
  | @looked t c' hr =>
    cases t with
    | none => rw [Scan.ofCursor_none hr, Lexer.scan, ofCursor_end (readToken_none hr).1]
    | some t => rw [Scan.ofCursor_some hr, Lexer.scan]
  | stuck hr hr' => rw [Scan.ofCursor_error hr, Lexer.scan, Scan.ofCursor_error hr']

end At

def Behind (start : Cursor) (l : Lexer) : Prop := ∃ ts c, Passes start ts c ∧ At c l

theorem Behind.peek {start : Cursor} {l l' : Lexer} {t : Option Token} (h : Behind start l)
    (hl : Lexer.peek l = .ok t l') : Behind start l' := by
  obtain ⟨ts, c, hts, hc⟩ := h
  rw [hc.peek, peek_eq] at hl
  cases hr : readToken c with
  | ok t c' =>
    rw [hr] at hl
    obtain ⟨rfl, rfl⟩ := EStateM.Result.ok.inj hl
    exact ⟨ts, c, hts, .looked hr⟩
  | error e c' =>
    rw [hr] at hl
    cases hl

theorem Behind.next {start : Cursor} {l l' : Lexer} {t : Option Token} (h : Behind start l)
    (hl : Lexer.next l = .ok t l') : Behind start l' := by
  obtain ⟨ts, c, hts, hc⟩ := h
  rw [hc.next, next_eq] at hl
  cases hr : readToken c with
  | ok t c' =>
    rw [hr] at hl
    obtain ⟨rfl, rfl⟩ := EStateM.Result.ok.inj hl
    cases t with
    | none => exact ⟨ts, c, hts, .looked hr⟩
    | some t => exact ⟨ts ++ [t], c', hts.snoc hr, .fresh⟩
  | error e c' =>
    rw [hr] at hl
    cases hl

theorem Behind.at {start c : Cursor} {l : Lexer} {ts : List Token} (h : Behind start l)
    (hc : Passes start ts c) (hl : l.scan = .ofCursor c) : At c l := by
  obtain ⟨us, d, hus, hd⟩ := h
  have hscan : Scan.ofCursor d = .ofCursor c := hd.scan.symm.trans hl
  have hall : (Scan.ofCursor c).behind us = (Scan.ofCursor c).behind ts := by
    rw [← hc.scan, hus.scan, hscan]
  obtain rfl := Scan.behind_inj hall
  obtain rfl := hus.unique hc
  exact hd

end Lexer

def Simulation.behind (start : Cursor) : Simulation (.within fun _ => True) Lexer Lexer where
  state _ l m := l = m ∧ Lexer.Behind start l
  stopped e f _ _ := e = f
  forget h := h
  peek {_ l m} h := by
    obtain ⟨rfl, hl⟩ := h
    change Agree _ _ _ (Lexer.peek l) (Lexer.peek l)
    cases hr : Lexer.peek l with
    | ok t l' => exact ⟨Correspondence.within_rel fun _ _ => trivial, rfl, hl.peek hr⟩
    | error e l' => exact .inr rfl
  next {_ l m} h := by
    obtain ⟨rfl, hl⟩ := h
    change Agree _ _ _ (Lexer.next l) (Lexer.next l)
    cases hr : Lexer.next l with
    | ok t l' => exact ⟨Correspondence.within_rel fun _ _ => trivial, rfl, hl.next hr⟩
    | error e l' => exact .inr rfl
  fail h hxy _ := by rw [Cause.eq_of_matches hxy, h.1]
  refuse _ hxy hab := by
    obtain rfl : _ = _ := hab
    rw [hxy.1]
  tooDeep h := by rw [h.1]

end RuleLang
