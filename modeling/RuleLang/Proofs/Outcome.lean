import Mathlib.Data.List.Forall2
import Mathlib.Tactic.Common
import RuleLang.Grammar

/-!
How readers run. A sequence of readers succeeds when each part does and fails where the first
part fails; the productions are restated without the guards that only fail, and the readers of
single tokens are evaluated on a list that is read to its end.
-/
namespace RuleLang

def Failure.IsTooDeep : Failure → Prop
  | .malformed e => e.cause = .nestingTooDeep
  | _ => False

def Failure.IsDuplicate : Failure → Prop
  | .malformed e => ∃ a, e.cause = .duplicateParameter a
  | _ => False

namespace Parser

open Vocabulary

variable {σ : Type} {α β : Type}

theorem bind_ok {p : Parser σ α} {f : α → Parser σ β} {s s' : σ} {b : β} :
    (p >>= f) s = .ok b s' ↔ ∃ a m, p s = .ok a m ∧ f a m = .ok b s' := by
  simp only [bind, EStateM.bind]
  cases p s <;> simp

theorem bind_error {p : Parser σ α} {f : α → Parser σ β} {s s' : σ} {e : Failure} :
    (p >>= f) s = .error e s' ↔
      p s = .error e s' ∨ ∃ a m, p s = .ok a m ∧ f a m = .error e s' := by
  simp only [bind, EStateM.bind]
  cases p s <;> simp

theorem bind_of_ok {p : Parser σ α} {s m : σ} {a : α} (h : p s = .ok a m)
    (f : α → Parser σ β) : (p >>= f) s = f a m := by
  simp only [bind, EStateM.bind, h]

theorem bind_of_error {p : Parser σ α} {s m : σ} {e : Failure} (h : p s = .error e m)
    (f : α → Parser σ β) : (p >>= f) s = .error e m := by
  simp only [bind, EStateM.bind, h]

theorem map_ok {p : Parser σ α} {f : α → β} {s s' : σ} {b : β} :
    (f <$> p) s = .ok b s' ↔ ∃ a, p s = .ok a s' ∧ f a = b := by
  simp only [Functor.map, EStateM.map]
  cases p s <;> simp [and_comm]

@[simp] theorem pure_run (a : α) (s : σ) : (pure a : Parser σ α) s = .ok a s := rfl

@[simp] theorem failAt_run (p : Position) (c : Cause) (s : σ) :
    (failAt p c : Parser σ α) s = .error (.malformed ⟨p, c⟩) s := rfl

variable [TokenSource σ]

@[simp] theorem fail_run (c : Cause) (s : σ) :
    (fail c : Parser σ α) s = .error (.malformed ⟨TokenSource.here s, c⟩) s := rfl

@[simp] theorem fail_bind (c : Cause) (f : α → Parser σ β) : fail c >>= f = fail c := rfl

def isMark (text : String) (t : Option Token) : Bool := t.any (·.lexeme = .punctuation text)

def itemsFrom (stop separator : String) (item : Parser σ α) (rounds : Nat) :
    Parser σ (List α) := do
  let t ← peek
  if isMark stop t then return []
  let x ← item
  let xs ← items stop separator item rounds false
  return x :: xs

theorem items_first (stop separator : String) (item : Parser σ α) (rounds : Nat) :
    items stop separator item (rounds + 1) true = (do
      let t ← peek
      if t.isNone || isMark stop t then return []
      itemsFrom stop separator item rounds) := rfl

theorem items_later (stop separator : String) (item : Parser σ α) (rounds : Nat) :
    items stop separator item (rounds + 1) false = (do
      let t ← peek
      if t.isNone || isMark stop t then return []
      let _ ← expectPunctuation separator
      itemsFrom stop separator item rounds) := rfl

theorem bindings_succ (operand : Parser σ Node) (rounds : Nat) (left : Node) (least : Int) :
    bindings operand (rounds + 1) left least = (do
      let t ← peek
      match operatorText? t with
      | none => return left
      | some op =>
        match bindingPower? op with
        | none => fail (.unknownOperator op)
        | some power =>
          if power ≤ least then return left
          let _ ← next
          let d ← operand
          let right ← bindings operand rounds d power
          bindings operand rounds (Node.joined op left right) least) := rfl

theorem statements_succ (statement : Parser σ Node) (left : Nat) :
    statements statement (left + 1) = (do
      let t ← peek
      if t.isNone then return []
      let node ← statement
      let t ← peek
      unless t.isNone do
        let _ ← expectPunctuation semicolon
      let nodes ← statements statement left
      return node :: nodes) := rfl

def declared (params : List Token) : Parser σ (List String) :=
  match firstRepeated? [] params with
  | some t => failAt t.position (.duplicateParameter (t.lexeme.text?.getD ""))
  | none => return params.filterMap (·.lexeme.text?)

theorem parameters_eq (rounds : Nat) :
    (parameters rounds : Parser σ (List String)) = (do
      let t ← peek
      if isMark openParen t then
        let params ← delimited rounds openParen closeParen comma expectIdentifier
        declared params
      else fail .missingParameters) := by
  simp only [parameters, fail_bind]
  rfl

theorem declaration_eq (rounds : Nat) (inner : Level σ) :
    declaration rounds inner = (do
      let _ ← next
      let name ← name?
      let params ← parameters rounds
      let t ← peek
      if isMark openBrace t then
        let body ← block rounds inner
        return .rule name params body
      else fail .missingBody) := by
  simp only [declaration, fail_bind]
  rfl

def applySign (sign : Token) (node : Node) : Node :=
  if sign.lexeme = .operator negateOperator then
    .binary timesOperator (.leaf ⟨.number .minusOne, sign.position⟩) node
  else node

theorem signed_eq (inner : Level σ) :
    signed inner = (do
      let sign ← expectOperator signOperators
      let t ← peek
      if t.any (takesSign ·.lexeme) then
        let node ← inner.operand
        return applySign sign node
      else fail .expectedSigned) := by
  simp only [signed, fail_bind, applySign, apply_ite pure]

theorem invocation_eq (rounds : Nat) (argument : Parser σ Node) (node : Node) :
    invocation rounds argument node = (do
      let t ← peek
      if isMark openParen t then
        let args ← delimited rounds openParen closeParen comma argument
        return .call node args
      else return node) := rfl

theorem name?_eq : (name? : Parser σ (Option String)) = (do
      let t ← peek
      if t.any (·.kind = .identifier) then
        let x ← expectIdentifier
        return x.lexeme.text?
      else return none) := rfl

theorem operatorText?_punctuation {t : Token} {p : String} (h : t.lexeme = .punctuation p) :
    operatorText? (some t) = none := by
  obtain ⟨x, q⟩ := t
  obtain rfl : x = .punctuation p := h
  rfl

theorem operatorText?_operator {t : Token} {op : String} (h : t.lexeme = .operator op) :
    operatorText? (some t) = some op := by
  obtain ⟨x, q⟩ := t
  obtain rfl : x = .operator op := h
  rfl

theorem operatorText?_some {t : Option Token} {op : String} (h : operatorText? t = some op) :
    ∃ u, t = some u ∧ u.lexeme = .operator op := by
  obtain _ | ⟨x, p⟩ := t
  · cases h
  · cases x <;> cases h
    exact ⟨_, rfl, rfl⟩

section Scans

variable {t : Token} {ts : List Token} {stop : Position} {e : Option Failure}

theorem look_cons (f : Option Token → Parser Scan α) :
    (peek >>= f) ⟨t :: ts, stop, e⟩ = f (some t) ⟨t :: ts, stop, e⟩ := rfl

theorem look_nil (f : Option Token → Parser Scan α) :
    (peek >>= f) ⟨[], stop, none⟩ = f none ⟨[], stop, none⟩ := rfl

theorem look_failed (f : Option Token → Parser Scan α) (x : Failure) :
    (peek >>= f) ⟨[], stop, some x⟩ = .error x ⟨[], stop, some x⟩ := rfl

theorem expect_cons (wanted : Lexeme → Bool) (cause : Cause) :
    expect wanted cause (⟨t :: ts, stop, e⟩ : Scan) =
      if wanted t.lexeme then .ok t ⟨ts, stop, e⟩
      else .error (.malformed ⟨t.position, cause⟩) ⟨t :: ts, stop, e⟩ := by
  rw [expect, look_cons]
  dsimp only
  split <;> rfl

theorem expect_nil (wanted : Lexeme → Bool) (cause : Cause) :
    expect wanted cause (⟨[], stop, none⟩ : Scan) =
      .error (.malformed ⟨stop, cause⟩) ⟨[], stop, none⟩ := rfl

theorem expect_failed (wanted : Lexeme → Bool) (cause : Cause) (x : Failure) :
    expect wanted cause (⟨[], stop, some x⟩ : Scan) = .error x ⟨[], stop, some x⟩ := rfl

end Scans

end Parser

end RuleLang
