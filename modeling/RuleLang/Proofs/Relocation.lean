import RuleLang.Proofs.Laziness
import RuleLang.Proofs.Leaves
import RuleLang.Proofs.NextToken

/-!
Reading in another place. A text is read alike wherever it stands: the places of tokens, leaves and
errors move along with it. How places move is a relation that every character carries on, and two
lexers that have the same text left, at related places, stay so.
-/
namespace RuleLang

open RuleLang.Parser

/-- How places in one text are related to those in another. -/
structure Relocation where
  place : Position → Position → Prop
  after {p q : Position} (c : Char) : place p q → place (p.after c) (q.after c)

namespace Relocation

variable (R : Relocation)

theorem afterAll {p q : Position} (h : R.place p q) (cs : List Char) :
    R.place (p.afterAll cs) (q.afterAll cs) := by
  induction cs generalizing p q with
  | nil => exact h
  | cons c cs ih => exact ih (R.after c h)

def correspondence : Correspondence where
  token t u := t.lexeme = u.lexeme ∧ R.place t.position u.position
  name := Eq
  lexeme := by
    intro t u h
    rw [h.1]
    exact .refl (fun _ => rfl) _
  minusOne h := ⟨rfl, h.2⟩
  sameName := (Correspondence.within fun _ => True).sameName

inductive Moves : Failure → Failure → Prop
  | malformed {p q : Position} (x : Cause) :
    R.place p q → Moves (.malformed ⟨p, x⟩) (.malformed ⟨q, x⟩)

/-- Cursors with the same text left, in related places. -/
def OnCursors (c d : Cursor) : Prop := c.rest = d.rest ∧ R.place c.position d.position

def OnLexers (l m : Lexer) : Prop :=
  R.OnCursors l.cursor m.cursor ∧ Option.Rel R.correspondence.token l.lookahead m.lookahead

variable {R}

theorem OnCursors.advance {c d : Cursor} (h : R.OnCursors c d) (n : Nat) :
    R.OnCursors (c.advance n) (d.advance n) := by
  obtain ⟨hrest, hplace⟩ := h
  simp only [OnCursors, Cursor.advance, hrest, true_and]
  exact R.afterAll hplace _

theorem OnLexers.here {l m : Lexer} (h : R.OnLexers l m) : R.place l.here m.here := by
  obtain ⟨c, x⟩ := l
  obtain ⟨d, y⟩ := m
  obtain ⟨hc, ht⟩ := h
  cases ht with
  | none => exact hc.2
  | some ht => exact ht.2

theorem OnCursors.readToken {c d : Cursor} (h : R.OnCursors c d) :
    Agree (Option.Rel R.correspondence.token) R.OnCursors
      (fun e f c d => R.Moves e f ∧ R.OnCursors c d) (Lexer.readToken c) (Lexer.readToken d) := by
  have hrest := h.1
  have hplace (gap : List Char) := R.afterAll h.2 gap
  have hnext := nextToken c
  generalize Lexer.readToken c = r at hnext
  cases hnext with
  | final hf =>
    rw [hrest] at hf ⊢
    rw [(NextToken.final hf).readToken]
    exact ⟨.none, h.advance _⟩
  | token hc hg hx he =>
    rw [(NextToken.token (hrest ▸ hc) hg hx he).readToken]
    exact ⟨.some ⟨rfl, hplace _⟩, h.advance _⟩
  | illegal hc hg hb =>
    rw [(NextToken.illegal (hrest ▸ hc) hg hb).readToken]
    exact .inr ⟨.malformed _ (hplace _), h.advance _⟩
  | unterminated hc hg hb =>
    rw [hrest] at hc ⊢
    rw [(NextToken.unterminated hc hg hb).readToken]
    exact .inr ⟨.malformed _ (hplace _), h.advance _⟩

theorem OnCursors.peek {c d : Cursor} (h : R.OnCursors c d) :
    Agree (Option.Rel R.correspondence.token) R.OnLexers
      (fun e f l m => R.Moves e f ∧ R.OnLexers l m)
      (Lexer.peek ⟨c, none⟩) (Lexer.peek ⟨d, none⟩) := by
  have hread := h.readToken
  rw [Lexer.peek_eq, Lexer.peek_eq]
  cases hc : Lexer.readToken c <;> cases hd : Lexer.readToken d <;> rw [hc, hd] at hread
  · exact ⟨hread.1, hread.2, hread.1⟩
  · exact hread.elim
  · exact hread
  · exact hread.imp_right fun hm => ⟨hm.1, hm.2, .none⟩

theorem OnCursors.next {c d : Cursor} (h : R.OnCursors c d) :
    Agree (Option.Rel R.correspondence.token) R.OnLexers
      (fun e f l m => R.Moves e f ∧ R.OnLexers l m)
      (Lexer.next ⟨c, none⟩) (Lexer.next ⟨d, none⟩) := by
  have hread := h.readToken
  rw [Lexer.next_eq, Lexer.next_eq]
  cases hc : Lexer.readToken c <;> cases hd : Lexer.readToken d <;> rw [hc, hd] at hread
  · exact ⟨hread.1, hread.2, .none⟩
  · exact hread.elim
  · exact hread
  · exact hread.imp_right fun hm => ⟨hm.1, hm.2, .none⟩

def simulation (R : Relocation) : Simulation R.correspondence Lexer Lexer where
  state _ := R.OnLexers
  stopped e f l m := R.Moves e f ∧ R.OnLexers l m
  forget h := h
  peek {_ l m} h := by
    obtain ⟨c, x⟩ := l
    obtain ⟨d, y⟩ := m
    obtain ⟨hc, ht⟩ := h
    cases ht with
    | none => exact hc.peek
    | some ht => exact ⟨.some ht, hc, .some ht⟩
  next {_ l m} h := by
    obtain ⟨c, x⟩ := l
    obtain ⟨d, y⟩ := m
    obtain ⟨hc, ht⟩ := h
    cases ht with
    | none => exact hc.next
    | some ht => exact ⟨.some ht, hc, .none⟩
  fail {x y _ _} h hxy _ := by
    rw [Cause.eq_of_lexeme And.left hxy]
    exact ⟨.malformed y h.here, h⟩
  refuse {_ _ a b _ _} h ht hab := by
    obtain rfl : a = b := hab
    exact ⟨.malformed _ ht.2, h⟩
  tooDeep h := ⟨.malformed _ h.here, h⟩

end Relocation

def Failure.moved (f : Position → Position) : Failure → Failure
  | malformed e => malformed ⟨f e.position, e.cause⟩
  | e => e

def Relocation.Along (R : Relocation) (f : Position → Position) : Prop :=
  ∀ p q : Position, R.place p q → q = f p

namespace Relocation.Along

variable {R : Relocation} {f : Position → Position}

theorem token (hf : R.Along f) {t u : Token} (h : R.correspondence.token t u) : u = t.moved f := by
  obtain ⟨x, p⟩ := t
  obtain ⟨y, q⟩ := u
  obtain ⟨rfl, hp⟩ : x = y ∧ R.place p q := h
  rw [hf _ _ hp]
  rfl

theorem tokens (hf : R.Along f) {ts us : List Token}
    (h : List.Forall₂ R.correspondence.token ts us) : us = ts.map (Token.moved f) := by
  induction h with
  | nil => rfl
  | cons ht _ ih => rw [ih, hf.token ht, List.map_cons]

mutual

theorem node (hf : R.Along f) : ∀ {a b : Node}, Node.Matches R.correspondence a b → b = a.moved f
  | .leaf _, .leaf _, h => congrArg Node.leaf (hf.token h)
  | .block _, .block _, h => congrArg Node.block (nodes hf h)
  | .call _ _, .call _ _, h => congrArg₂ Node.call (node hf h.1) (nodes hf h.2)
  | .rule a ps x, .rule b qs y, h => by
    have hp : ps = qs := eq_of_forall_eq h.2.1
    have hn : a = b := eq_of_rel_eq h.1
    rw [hn, hp, node hf h.2.2]
    rfl
  | .binary _ a b, .binary _ x y, h => by
    obtain ⟨rfl, ha, hb⟩ := h
    rw [node hf ha, node hf hb]
    rfl
  | .assign _ _, .assign _ _, h => congrArg₂ Node.assign (node hf h.1) (node hf h.2)
  | .truth _, .truth _, h => congrArg Node.truth (Eq.symm h)
  | .blank, .blank, _ => rfl

theorem nodes (hf : R.Along f) : ∀ {xs ys : List Node},
    Node.MatchesAll R.correspondence xs ys → ys = Node.mapLeavesAll (Token.moved f) xs
  | [], [], _ => rfl
  | _ :: _, _ :: _, h => congrArg₂ List.cons (node hf h.1) (nodes hf h.2)

end

theorem trees (hf : R.Along f) {xs ys : List Node}
    (h : List.Forall₂ (Node.Matches R.correspondence) xs ys) : ys = xs.map (Node.moved f) :=
  (nodes hf (Node.matchesAll_iff.2 h)).trans (Node.mapLeavesAll_eq _ _)

theorem failure (hf : R.Along f) {e e' : Failure} (h : R.Moves e e') : e' = e.moved f := by
  cases h with
  | malformed x h =>
    rw [hf _ _ h]
    rfl

end Relocation.Along

def Position.down (k : Int) (p : Position) : Position := ⟨p.line + k, p.column⟩

def Relocation.down (k : Int) : Relocation where
  place p q := q = p.down k
  after {p q} c h := by
    subst h
    unfold Position.after Position.down
    split
    · simp only [Position.mk.injEq, and_true]
      omega
    · rfl

theorem Relocation.along_down (k : Int) : (Relocation.down k).Along (Position.down k) :=
  fun _ _ => id

end RuleLang
