import Mathlib.Data.List.Induction
import RuleLang.Proofs.FirstError

/-!
Declarations of rules. A declaration is read in one order: the name that it may have, the list of
its parameters, whether one of them is repeated, and its body. What is wrong first in that order is
what is reported, at the token where it is found; only a repeated parameter is reported behind the
cursor, which by then has passed the whole list.
-/
namespace RuleLang

open RuleLang.Vocabulary RuleLang.Parser

/-- What is reported at the next token, or at the end for whatever reason there is none. -/
def Scan.refusal (s : Scan) (cause : Cause) : Failure :=
  match s.tokens, s.failure with
  | [], some e => e
  | _, _ => .malformed ⟨s.here, cause⟩

inductive Titled : Option String → List Token → List Token → Prop
  | name {t : Token} {name : String} {rest : List Token} :
    t.lexeme = .identifier name → Titled (some name) (t :: rest) rest
  | anonymous {ts : List Token} :
    (∀ t ∈ ts.head?, t.kind ≠ .identifier) → Titled none ts ts

def identifiers (ts : List Token) : List Token := ts.filter (·.kind = .identifier)

/-- The first tokens of a parameter list end, or the next token cannot go on with them. -/
def Interrupted (front left : List Token) : Prop :=
  ∀ t ∈ left.head?, t.lexeme ≠ .punctuation closeParen ∧
    ∀ more names, ¬ Names (front ++ t :: more) names

/-- What is missed behind the first tokens of a parameter list. -/
def awaited (front left : List Token) : Cause :=
  if left = [] ∧ front.getLast?.all (·.kind = .identifier) then .expectedPunctuation closeParen
  else if front.getLast?.any (·.kind = .identifier) then .expectedPunctuation comma
  else .expectedIdentifier

/-- How reading a declaration ends, by the tokens behind its first word. -/
inductive Declares (rounds : Nat) (inner : Level Scan) (stop : Position) (f : Option Failure)
    (ts : List Token) : EStateM.Result Failure Scan Node → Prop
  | noList {name : Option String} {mid : List Token} : Titled name ts mid →
    isMark openParen mid.head? = false →
    Declares rounds inner stop f ts
      (.error (Scan.refusal ⟨mid, stop, f⟩ .missingParameters) ⟨mid, stop, f⟩)
  | interrupted {name : Option String} {names : List String} {o : Token}
    {front left : List Token} : Titled name ts (o :: (front ++ left)) →
    o.lexeme = .punctuation openParen → Names front names → Interrupted front left →
    Declares rounds inner stop f ts
      (.error (Scan.refusal ⟨left, stop, f⟩ (awaited front left)) ⟨left, stop, f⟩)
  | repeated {name : Option String} {earlier later : List String} {param : String}
    {o c t : Token} {front rest : List Token} : Titled name ts (o :: (front ++ c :: rest)) →
    o.lexeme = .punctuation openParen → Names front (earlier ++ param :: later) →
    c.lexeme = .punctuation closeParen → earlier.Nodup → param ∈ earlier →
    (identifiers front)[earlier.length]? = some t →
    Declares rounds inner stop f ts
      (.error (.malformed ⟨t.position, .duplicateParameter param⟩) ⟨rest, stop, f⟩)
  | noBody {name : Option String} {names : List String} {o c : Token} {front rest : List Token} :
    Titled name ts (o :: (front ++ c :: rest)) → o.lexeme = .punctuation openParen →
    Names front names → c.lexeme = .punctuation closeParen → names.Nodup →
    isMark openBrace rest.head? = false →
    Declares rounds inner stop f ts
      (.error (Scan.refusal ⟨rest, stop, f⟩ .missingBody) ⟨rest, stop, f⟩)
  | body {name : Option String} {names : List String} {o c : Token} {front rest : List Token} :
    Titled name ts (o :: (front ++ c :: rest)) → o.lexeme = .punctuation openParen →
    Names front names → c.lexeme = .punctuation closeParen → names.Nodup →
    isMark openBrace rest.head? = true →
    Declares rounds inner stop f ts ((Node.rule name names <$> block rounds inner) ⟨rest, stop, f⟩)

section Steps

variable {α : Type} {stop : Position} {f : Option Failure} {ts : List Token} {t : Token}

theorem look_pos {g : Option Token → Bool} {p q : Parser Scan α} (h : g ts.head? = true)
    (hnone : g none = false) :
    (do let t ← peek; if g t then p else q) (⟨ts, stop, f⟩ : Scan) = p ⟨ts, stop, f⟩ := by
  cases ts with
  | nil =>
    rw [List.head?_nil, hnone] at h
    cases h
  | cons t ts =>
    rw [look_cons]
    exact congrFun (if_pos h) _

theorem look_neg {g : Option Token → Bool} {p : Parser Scan α} {cause : Cause}
    (h : g ts.head? = false) :
    (do let t ← peek; if g t then p else fail cause) (⟨ts, stop, f⟩ : Scan) =
      .error (Scan.refusal ⟨ts, stop, f⟩ cause) ⟨ts, stop, f⟩ := by
  have hfalse : ¬ g ts.head? = true := Bool.eq_false_iff.1 h
  cases ts with
  | nil =>
    cases f with
    | none =>
      rw [look_nil]
      exact congrFun (if_neg hfalse) _
    | some e => rfl
  | cons t ts =>
    rw [look_cons]
    exact congrFun (if_neg hfalse) _

theorem bind_congr_run {β : Type} {p q : Parser Scan α} {s s' : Scan} (h : p s = q s')
    (k : α → Parser Scan β) : (p >>= k) s = (q >>= k) s' := by
  simp only [bind, EStateM.bind, h]

theorem expect_refused {wanted : Lexeme → Bool} (cause : Cause)
    (h : ∀ t ∈ ts.head?, ¬ wanted t.lexeme) :
    Parser.expect wanted cause (⟨ts, stop, f⟩ : Scan) =
      .error (Scan.refusal ⟨ts, stop, f⟩ cause) ⟨ts, stop, f⟩ := by
  cases ts with
  | nil => cases f <;> rfl
  | cons t ts =>
    rw [expect_cons, if_neg (h t rfl)]
    rfl

theorem expect_taken {wanted : Lexeme → Bool} (cause : Cause) (h : wanted t.lexeme) :
    Parser.expect wanted cause (⟨t :: ts, stop, f⟩ : Scan) = .ok t ⟨ts, stop, f⟩ := by
  rw [expect_cons, if_pos h]

theorem identifier_taken (h : t.kind = .identifier) :
    expectIdentifier (⟨t :: ts, stop, f⟩ : Scan) = .ok t ⟨ts, stop, f⟩ :=
  expect_taken _ (decide_eq_true h)

theorem identifier_refused (h : ∀ t ∈ ts.head?, t.kind ≠ .identifier) :
    expectIdentifier (⟨ts, stop, f⟩ : Scan) =
      .error (Scan.refusal ⟨ts, stop, f⟩ .expectedIdentifier) ⟨ts, stop, f⟩ :=
  expect_refused _ fun t ht hk => h t ht (of_decide_eq_true hk)

theorem mark_taken {text : String} (h : t.lexeme = .punctuation text) :
    expectPunctuation text (⟨t :: ts, stop, f⟩ : Scan) = .ok t ⟨ts, stop, f⟩ :=
  expect_taken _ (decide_eq_true h)

theorem mark_refused {text : String} (h : ∀ t ∈ ts.head?, t.lexeme ≠ .punctuation text) :
    expectPunctuation text (⟨ts, stop, f⟩ : Scan) =
      .error (Scan.refusal ⟨ts, stop, f⟩ (.expectedPunctuation text)) ⟨ts, stop, f⟩ :=
  expect_refused _ fun t ht hk => h t ht (of_decide_eq_true hk)

end Steps

theorem kind_identifier {t : Token} {name : String} (h : t.lexeme = .identifier name) :
    t.kind = .identifier := by
  rw [Token.kind, h]
  rfl

theorem kind_comma {t : Token} (h : t.lexeme = .punctuation comma) : t.kind ≠ .identifier := by
  rw [Token.kind, h]
  decide

theorem identifiers_more {t s : Token} {name : String} (ht : t.lexeme = .identifier name)
    (hs : s.lexeme = .punctuation comma) (ts : List Token) :
    identifiers (t :: s :: ts) = t :: identifiers ts := by
  simp [identifiers, kind_identifier ht, kind_comma hs]

theorem identifiers_names {ts : List Token} {names : List String} (h : Names ts names) :
    (identifiers ts).map (·.lexeme) = names.map .identifier := by
  induction h with
  | none => rfl
  | last ht => simp [identifiers, kind_identifier ht, ht]
  | @more t s name ts names ht hs _ ih =>
    rw [identifiers_more ht hs, List.map_cons, List.map_cons, ht, ih]

theorem awaited_cons {s : Token} {front left : List Token} (hne : front ++ left ≠ [])
    (hs : s.kind ≠ .identifier) : awaited (s :: front) left = awaited front left := by
  cases front with
  | nil => simp [awaited, hs, show left ≠ [] from hne]
  | cons t front => rw [awaited, awaited, List.getLast?_cons_cons]

section Lists

variable {stop : Position} {f : Option Failure} {rounds : Nat} {ts rest front left : List Token}
  {t c : Token} {names : List String}

def parametersUpTo (rounds : Nat) (first : Bool) : Parser Scan (List Token) :=
  items closeParen comma expectIdentifier rounds first

def parametersFrom (rounds : Nat) : Parser Scan (List Token) :=
  itemsFrom closeParen comma expectIdentifier rounds

theorem parametersFrom_stop (hc : c.lexeme = .punctuation closeParen) :
    parametersFrom rounds (⟨c :: rest, stop, f⟩ : Scan) = .ok [] ⟨c :: rest, stop, f⟩ := by
  rw [parametersFrom, itemsFrom, look_cons, if_pos (isMark_some.2 hc)]
  rfl

theorem parametersFrom_name (ht : t.kind = .identifier) :
    parametersFrom rounds (⟨t :: ts, stop, f⟩ : Scan) =
      ((t :: ·) <$> parametersUpTo rounds false) ⟨ts, stop, f⟩ := by
  have hmark : isMark closeParen (some t) = false := by
    refine not_isMark fun h => ?_
    rw [Token.kind, h] at ht
    cases ht
  rw [parametersFrom, itemsFrom, look_cons, hmark, if_neg (by decide)]
  exact bind_of_ok (identifier_taken ht) _

theorem parametersFrom_refused (h : ∀ t ∈ left.head?, t.lexeme ≠ .punctuation closeParen ∧
    t.kind ≠ .identifier) : parametersFrom rounds (⟨left, stop, f⟩ : Scan) =
      .error (Scan.refusal ⟨left, stop, f⟩ .expectedIdentifier) ⟨left, stop, f⟩ := by
  cases left with
  | nil =>
    cases f with
    | none => rfl
    | some e => rfl
  | cons t left =>
    rw [parametersFrom, itemsFrom, look_cons, not_isMark (h t rfl).1, if_neg (by decide)]
    exact bind_of_error (identifier_refused fun u hu => (h u hu).2) _

theorem parameters_first (hts : ∀ t ∈ ts.head?, t.lexeme ≠ .punctuation closeParen)
    (hne : ts ≠ []) : parametersUpTo (rounds + 1) true (⟨ts, stop, f⟩ : Scan) =
      parametersFrom rounds ⟨ts, stop, f⟩ := by
  obtain ⟨t, ts, rfl⟩ := List.exists_cons_of_ne_nil hne
  rw [parametersUpTo, items_first, look_cons]
  simp [not_isMark (hts t rfl)]
  rfl

theorem parameters_stop {first : Bool} (hc : c.lexeme = .punctuation closeParen) :
    parametersUpTo (rounds + 1) first (⟨c :: rest, stop, f⟩ : Scan) =
      .ok [] ⟨c :: rest, stop, f⟩ := by
  cases first with
  | true =>
    rw [parametersUpTo, items_first, look_cons, isMark_some.2 hc]
    rfl
  | false =>
    rw [parametersUpTo, items_later, look_cons, isMark_some.2 hc]
    rfl

theorem parameters_comma (hc : c.lexeme = .punctuation comma) :
    parametersUpTo (rounds + 1) false (⟨c :: ts, stop, f⟩ : Scan) =
      parametersFrom rounds ⟨ts, stop, f⟩ := by
  have hmark : isMark closeParen (some c) = false := by
    refine not_isMark ?_
    rw [hc]
    exact fun h => absurd (Lexeme.punctuation.inj h) (by decide)
  rw [parametersUpTo, items_later, look_cons, hmark]
  exact bind_of_ok (mark_taken hc) _

theorem parametersFrom_ok (h : Names front names) (hc : c.lexeme = .punctuation closeParen)
    (hr : front.length ≤ rounds) : parametersFrom rounds (⟨front ++ c :: rest, stop, f⟩ : Scan) =
      .ok (identifiers front) ⟨c :: rest, stop, f⟩ := by
  induction h generalizing rounds with
  | none => exact parametersFrom_stop hc
  | @last t name ht =>
    obtain ⟨rounds, rfl⟩ := Nat.exists_eq_add_of_le' hr
    rw [List.singleton_append, parametersFrom_name (kind_identifier ht)]
    exact map_ok.2 ⟨[], parameters_stop hc, by simp [identifiers, kind_identifier ht]⟩
  | @more t s name ts names ht hs _ ih =>
    rw [List.length_cons, List.length_cons] at hr
    obtain ⟨rounds, rfl⟩ : ∃ n, rounds = n + 1 := ⟨rounds - 1, by omega⟩
    have hmore := @ih rounds (by omega)
    rw [List.cons_append, List.cons_append, parametersFrom_name (kind_identifier ht)]
    exact map_ok.2 ⟨_, (parameters_comma hs).trans hmore, (identifiers_more ht hs ts).symm⟩

def closed (p : Parser Scan (List Token)) (g : List Token → List Token) :
    Parser Scan (List Token) := do
  let xs ← p
  let _ ← expectPunctuation closeParen
  return g xs

theorem closed_parametersFrom_name (ht : t.kind = .identifier) (g : List Token → List Token) :
    closed (parametersFrom rounds) g (⟨t :: ts, stop, f⟩ : Scan) =
      closed (parametersUpTo rounds false) (fun xs => g (t :: xs)) ⟨ts, stop, f⟩ := by
  rw [closed, bind_congr_run (parametersFrom_name ht), bind_map_left]
  rfl

theorem closed_parametersUpTo_refused (h : ∀ t ∈ left.head?, t.lexeme ≠ .punctuation closeParen ∧
    t.lexeme ≠ .punctuation comma) (g : List Token → List Token) :
    closed (parametersUpTo (rounds + 1) false) g (⟨left, stop, f⟩ : Scan) =
      .error (Scan.refusal ⟨left, stop, f⟩
        (.expectedPunctuation (if left = [] then closeParen else comma))) ⟨left, stop, f⟩ := by
  cases left with
  | nil => cases f <;> rfl
  | cons t left =>
    refine bind_of_error ?_ _
    rw [parametersUpTo, items_later, look_cons, not_isMark (h t rfl).1]
    exact bind_of_error (mark_refused fun u hu => (h u hu).2) _

theorem closed_parametersFrom_refused {s : Token} (hs : s.kind ≠ .identifier)
    (h : Names front names) (hi : Interrupted front left) (hr : front.length ≤ rounds)
    (g : List Token → List Token) :
    closed (parametersFrom rounds) g (⟨front ++ left, stop, f⟩ : Scan) =
      .error (Scan.refusal ⟨left, stop, f⟩ (awaited (s :: front) left)) ⟨left, stop, f⟩ := by
  induction h generalizing rounds g s with
  | none =>
    have hawaited : awaited [s] left = .expectedIdentifier := by simp [awaited, hs]
    rw [hawaited]
    refine bind_of_error (parametersFrom_refused fun t ht => ⟨(hi t ht).1, fun hk => ?_⟩) _
    obtain ⟨name, hname⟩ := identifier_of_kind hk
    exact (hi t ht).2 [] [name] (.last hname)
  | @last t name ht =>
    obtain ⟨rounds, rfl⟩ := Nat.exists_eq_add_of_le' hr
    have hawaited : awaited [s, t] left =
        .expectedPunctuation (if left = [] then closeParen else comma) := by
      by_cases hleft : left = [] <;> simp [awaited, kind_identifier ht, hleft]
    rw [hawaited, List.singleton_append, closed_parametersFrom_name (kind_identifier ht)]
    refine closed_parametersUpTo_refused (fun u hu => ⟨(hi u hu).1, fun hc => ?_⟩) _
    exact (hi u hu).2 [] [name] (.more ht hc .none)
  | @more t c name ts names ht hc _ ih =>
    rw [List.length_cons, List.length_cons] at hr
    obtain ⟨rounds, rfl⟩ : ∃ n, rounds = n + 1 := ⟨rounds - 1, by omega⟩
    have hi' : Interrupted ts left := fun u hu =>
      ⟨(hi u hu).1, fun more names' h => (hi u hu).2 more (name :: names') (.more ht hc h)⟩
    have hawaited : awaited (s :: t :: c :: ts) left = awaited (c :: ts) left := by
      rw [awaited, awaited, List.getLast?_cons_cons, List.getLast?_cons_cons]
    rw [hawaited, List.cons_append, List.cons_append,
      closed_parametersFrom_name (kind_identifier ht)]
    exact (bind_congr_run (parameters_comma hc) _).trans (ih (kind_comma hc) hi' (by omega) _)

theorem delimited_parameters {o : Token} (ho : o.lexeme = .punctuation openParen) :
    delimited rounds openParen closeParen comma expectIdentifier (⟨o :: ts, stop, f⟩ : Scan) =
      closed (parametersUpTo rounds true) id ⟨ts, stop, f⟩ :=
  bind_of_ok (mark_taken ho) _

theorem names_not_close (h : Names front names) :
    ∀ t ∈ front.head?, t.lexeme ≠ .punctuation closeParen := by
  cases h with
  | none => exact nofun
  | last ht | more ht =>
    intro u hu
    obtain rfl := Option.some.inj hu
    rw [ht]
    exact nofun

theorem delimited_ok {o : Token} (ho : o.lexeme = .punctuation openParen)
    (h : Names front names) (hc : c.lexeme = .punctuation closeParen)
    (hr : front.length < rounds) :
    delimited rounds openParen closeParen comma expectIdentifier
      (⟨o :: (front ++ c :: rest), stop, f⟩ : Scan) = .ok (identifiers front) ⟨rest, stop, f⟩ := by
  obtain ⟨rounds, rfl⟩ : ∃ n, rounds = n + 1 := ⟨rounds - 1, by omega⟩
  have hitems : parametersUpTo (rounds + 1) true (⟨front ++ c :: rest, stop, f⟩ : Scan) =
      .ok (identifiers front) ⟨c :: rest, stop, f⟩ := by
    cases front with
    | nil => exact parameters_stop hc
    | cons t ts =>
      have hhead : ∀ u ∈ (t :: ts ++ c :: rest).head?, u.lexeme ≠ .punctuation closeParen := by
        simpa using names_not_close h
      rw [parameters_first hhead (List.cons_ne_nil _ _)]
      exact parametersFrom_ok h hc (Nat.le_of_lt_succ hr)
  rw [delimited_parameters ho, closed, bind_of_ok hitems]
  exact bind_of_ok (mark_taken hc) _

theorem delimited_interrupted {o : Token} (ho : o.lexeme = .punctuation openParen)
    (h : Names front names) (hi : Interrupted front left) (hr : front.length < rounds) :
    delimited rounds openParen closeParen comma expectIdentifier
      (⟨o :: (front ++ left), stop, f⟩ : Scan) =
        .error (Scan.refusal ⟨left, stop, f⟩ (awaited front left)) ⟨left, stop, f⟩ := by
  obtain ⟨rounds, rfl⟩ : ∃ n, rounds = n + 1 := ⟨rounds - 1, by omega⟩
  rw [delimited_parameters ho]
  by_cases hne : front ++ left = []
  · obtain ⟨rfl, rfl⟩ := List.append_eq_nil_iff.1 hne
    cases f <;> rfl
  · have hhead : ∀ t ∈ (front ++ left).head?, t.lexeme ≠ .punctuation closeParen := by
      cases front with
      | nil => exact fun t ht => (hi t ht).1
      | cons t ts => simpa using names_not_close h
    rw [closed, bind_congr_run (parameters_first hhead hne)]
    have hs : (markToken comma).kind ≠ .identifier := kind_comma rfl
    rw [← awaited_cons hne hs]
    exact closed_parametersFrom_refused hs h hi (by omega) id

end Lists

theorem Names.cons_inv {t : Token} {ts : List Token} {names : List String}
    (h : Names (t :: ts) names) : t.kind = .identifier := by
  cases h with
  | last ht | more ht => exact kind_identifier ht

theorem Names.cons_cons_inv {t s : Token} {ts : List Token} {names : List String}
    (h : Names (t :: s :: ts) names) :
    s.lexeme = .punctuation comma ∧ ∃ names', Names ts names' := by
  cases h with
  | more _ hs hts => exact ⟨hs, _, hts⟩

theorem names_ended_or_interrupted : ∀ us : List Token,
    (∃ front c rest names, us = front ++ c :: rest ∧ c.lexeme = .punctuation closeParen ∧
      Names front names) ∨
    ∃ front left names, us = front ++ left ∧ Names front names ∧ Interrupted front left
  | [] => .inr ⟨[], [], [], rfl, .none, nofun⟩
  | t :: us => by
    by_cases hclose : t.lexeme = .punctuation closeParen
    · exact .inl ⟨[], t, us, [], rfl, hclose, .none⟩
    by_cases hk : t.kind = .identifier
    case neg =>
      refine .inr ⟨[], t :: us, [], rfl, .none, fun x hx => ?_⟩
      obtain rfl := Option.some.inj hx
      exact ⟨hclose, fun more names h => hk h.cons_inv⟩
    obtain ⟨name, hname⟩ := identifier_of_kind hk
    match us with
    | [] => exact .inr ⟨[t], [], [name], rfl, .last hname, nofun⟩
    | s :: us =>
      by_cases hends : s.lexeme = .punctuation closeParen
      · exact .inl ⟨[t], s, us, [name], rfl, hends, .last hname⟩
      by_cases hs : s.lexeme = .punctuation comma
      case neg =>
        refine .inr ⟨[t], s :: us, [name], rfl, .last hname, fun x hx => ?_⟩
        obtain rfl := Option.some.inj hx
        exact ⟨hends, fun more names h => hs h.cons_cons_inv.1⟩
      rcases names_ended_or_interrupted us with
        ⟨front, c, rest, names, rfl, hc, hnames⟩ | ⟨front, left, names, rfl, hnames, hi⟩
      · exact .inl ⟨t :: s :: front, c, rest, name :: names, rfl, hc, .more hname hs hnames⟩
      · refine .inr ⟨t :: s :: front, left, name :: names, rfl, .more hname hs hnames, ?_⟩
        intro x hx
        refine ⟨(hi x hx).1, fun more names' h => ?_⟩
        obtain ⟨_, names'', h'⟩ := h.cons_cons_inv
        exact (hi x hx).2 more names'' h'

theorem not_nodup_split {names : List String} (h : ¬ names.Nodup) :
    ∃ earlier param later, names = earlier ++ param :: later ∧ earlier.Nodup ∧ param ∈ earlier := by
  induction names using List.reverseRec with
  | nil => exact absurd .nil h
  | append_singleton names name ih =>
    by_cases hn : names.Nodup
    · refine ⟨names, name, [], rfl, hn, ?_⟩
      by_contra hmem
      exact h (List.nodup_append.2 ⟨hn, List.nodup_singleton name, by grind⟩)
    · obtain ⟨earlier, param, later, rfl, he, hp⟩ := ih hn
      exact ⟨earlier, param, later ++ [name], by simp, he, hp⟩

theorem firstRepeated?_append {earlier : List (Option String)} {us : List Token}
    (h : firstRepeated? earlier us = none) (vs : List Token) :
    firstRepeated? earlier (us ++ vs) =
      firstRepeated? (earlier ++ us.map (·.lexeme.text?)) vs := by
  induction us generalizing earlier with
  | nil => rw [List.nil_append, List.map_nil, List.append_nil]
  | cons u us ih =>
    rw [firstRepeated?] at h
    split at h
    · cases h
    · next hu =>
      rw [List.cons_append, firstRepeated?, if_neg hu, ih h]
      simp

theorem firstRepeated?_names {params : List Token} {earlier later : List String} {param : String}
    (h : params.map (·.lexeme) = (earlier ++ param :: later).map .identifier)
    (hn : earlier.Nodup) (hp : param ∈ earlier) :
    ∃ t, params[earlier.length]? = some t ∧ t.lexeme = .identifier param ∧
      firstRepeated? [] params = some t := by
  rw [List.map_append, List.map_cons] at h
  obtain ⟨us, ts, rfl, hus, hts⟩ := List.map_eq_append_iff.1 h
  obtain ⟨t, vs, rfl, ht, _⟩ := List.map_eq_cons_iff.1 hts
  have hlength : us.length = earlier.length := by simpa using congrArg List.length hus
  refine ⟨t, by simp [← hlength], ht, ?_⟩
  have hmem : t.lexeme.text? ∈ us.map (·.lexeme.text?) := by
    have hx : t.lexeme ∈ us.map (·.lexeme) := by
      rw [hus, ht]
      exact List.mem_map_of_mem hp
    obtain ⟨u, hu, hux⟩ := List.mem_map.1 hx
    exact List.mem_map.2 ⟨u, hu, congrArg Lexeme.text? hux⟩
  rw [firstRepeated?_append ((nodup_names hus).2 hn), firstRepeated?, if_pos]
  exact List.mem_append_right [] hmem

section Declaration

variable {stop : Position} {f : Option Failure} {rounds : Nat} {inner : Level Scan}
  {name : Option String} {names : List String} {r o c : Token} {ts mid front left rest : List Token}

theorem exists_titled (ts : List Token) : ∃ name mid, Titled name ts mid := by
  cases ts with
  | nil => exact ⟨none, [], .anonymous nofun⟩
  | cons t ts =>
    by_cases hk : t.kind = .identifier
    · obtain ⟨name, hname⟩ := identifier_of_kind hk
      exact ⟨some name, ts, .name hname⟩
    · refine ⟨none, t :: ts, .anonymous fun u hu => ?_⟩
      obtain rfl := Option.some.inj hu
      exact hk

theorem Titled.length_le (h : Titled name ts mid) : mid.length ≤ ts.length := by
  cases h with
  | name _ => exact Nat.le_succ _
  | anonymous _ => exact Nat.le_refl _

def untitled (rounds : Nat) (inner : Level Scan) (name : Option String) : Parser Scan Node := do
  let names ← parameters rounds
  let t ← peek
  if isMark openBrace t then
    let body ← block rounds inner
    return .rule name names body
  else fail .missingBody

theorem declaration_titled (h : Titled name ts mid) :
    declaration rounds inner ⟨r :: ts, stop, f⟩ = untitled rounds inner name ⟨mid, stop, f⟩ := by
  rw [declaration_eq, name?_eq]
  refine (bind_of_ok (Scan.next_cons r ts stop f) _).trans ?_
  cases h with
  | @name t name rest ht =>
    have hk : t.kind = .identifier := kind_identifier ht
    refine bind_of_ok ?_ _
    rw [look_cons, if_pos (by simp [hk]), bind_of_ok (identifier_taken hk), pure_run, ht]
    rfl
  | anonymous hts =>
    cases ts with
    | nil =>
      cases f with
      | none => rfl
      | some e => rfl
    | cons t ts =>
      refine bind_of_ok ?_ _
      rw [look_cons, if_neg (by simpa using hts t rfl)]
      rfl

theorem untitled_noList (h : isMark openParen mid.head? = false) :
    untitled rounds inner name ⟨mid, stop, f⟩ =
      .error (Scan.refusal ⟨mid, stop, f⟩ .missingParameters) ⟨mid, stop, f⟩ := by
  rw [untitled, parameters_eq]
  exact bind_of_error (look_neg h) _

theorem parameters_listed (ho : o.lexeme = .punctuation openParen) :
    parameters rounds (⟨o :: ts, stop, f⟩ : Scan) =
      (delimited rounds openParen closeParen comma expectIdentifier >>= declared)
        ⟨o :: ts, stop, f⟩ := by
  rw [parameters_eq]
  exact look_pos (isMark_some.2 ho) rfl

theorem untitled_interrupted (ho : o.lexeme = .punctuation openParen) (h : Names front names)
    (hi : Interrupted front left) (hr : front.length < rounds) :
    untitled rounds inner name ⟨o :: (front ++ left), stop, f⟩ =
      .error (Scan.refusal ⟨left, stop, f⟩ (awaited front left)) ⟨left, stop, f⟩ := by
  refine bind_of_error ((parameters_listed ho).trans ?_) _
  exact bind_of_error (delimited_interrupted ho h hi hr) _

theorem untitled_repeated {earlier later : List String} {param : String} {t : Token}
    (ho : o.lexeme = .punctuation openParen) (h : Names front (earlier ++ param :: later))
    (hc : c.lexeme = .punctuation closeParen) (hn : earlier.Nodup) (hp : param ∈ earlier)
    (ht : (identifiers front)[earlier.length]? = some t) (hr : front.length < rounds) :
    untitled rounds inner name ⟨o :: (front ++ c :: rest), stop, f⟩ =
      .error (.malformed ⟨t.position, .duplicateParameter param⟩) ⟨rest, stop, f⟩ := by
  obtain ⟨u, hu, hlexeme, hfirst⟩ := firstRepeated?_names (identifiers_names h) hn hp
  obtain rfl := Option.some.inj (ht.symm.trans hu)
  refine bind_of_error ((parameters_listed ho).trans ?_) _
  have htext : t.lexeme.text?.getD "" = param := by rw [hlexeme]; rfl
  rw [bind_of_ok (delimited_ok ho h hc hr), declared, hfirst, ← htext]
  rfl

theorem parameters_distinct (ho : o.lexeme = .punctuation openParen) (h : Names front names)
    (hc : c.lexeme = .punctuation closeParen) (hn : names.Nodup) (hr : front.length < rounds) :
    parameters rounds (⟨o :: (front ++ c :: rest), stop, f⟩ : Scan) =
      .ok names ⟨rest, stop, f⟩ := by
  have hnames := identifiers_names h
  rw [parameters_listed ho, bind_of_ok (delimited_ok ho h hc hr), declared,
    (nodup_names hnames).2 hn]
  have htexts : (identifiers front).filterMap (·.lexeme.text?) = names := by
    calc (identifiers front).filterMap (·.lexeme.text?)
      _ = ((identifiers front).map (·.lexeme)).filterMap Lexeme.text? := by
        rw [List.filterMap_map]; rfl
      _ = names := by
        rw [hnames, List.filterMap_map]
        exact List.filterMap_some
  rw [htexts]
  rfl

theorem untitled_body (ho : o.lexeme = .punctuation openParen) (h : Names front names)
    (hc : c.lexeme = .punctuation closeParen) (hn : names.Nodup) (hr : front.length < rounds)
    (hb : isMark openBrace rest.head? = true) :
    untitled rounds inner name ⟨o :: (front ++ c :: rest), stop, f⟩ =
      (Node.rule name names <$> block rounds inner) ⟨rest, stop, f⟩ := by
  rw [untitled, bind_of_ok (parameters_distinct ho h hc hn hr)]
  exact look_pos hb rfl

theorem untitled_noBody (ho : o.lexeme = .punctuation openParen) (h : Names front names)
    (hc : c.lexeme = .punctuation closeParen) (hn : names.Nodup) (hr : front.length < rounds)
    (hb : isMark openBrace rest.head? = false) :
    untitled rounds inner name ⟨o :: (front ++ c :: rest), stop, f⟩ =
      .error (Scan.refusal ⟨rest, stop, f⟩ .missingBody) ⟨rest, stop, f⟩ := by
  rw [untitled, bind_of_ok (parameters_distinct ho h hc hn hr)]
  exact look_neg hb

theorem Declares.run {res : EStateM.Result Failure Scan Node}
    (h : Declares rounds inner stop f ts res) (hr : ts.length < rounds) :
    declaration rounds inner ⟨r :: ts, stop, f⟩ = res := by
  have hfront {name : Option String} {o : Token} {front left : List Token}
      (ht : Titled name ts (o :: (front ++ left))) : front.length < rounds := by
    have hlength := ht.length_le
    rw [List.length_cons, List.length_append] at hlength
    omega
  cases h with
  | noList ht hopen => exact (declaration_titled ht).trans (untitled_noList hopen)
  | interrupted ht ho hnames hi =>
    exact (declaration_titled ht).trans (untitled_interrupted ho hnames hi (hfront ht))
  | repeated ht ho hnames hc hn hp hindex =>
    exact (declaration_titled ht).trans (untitled_repeated ho hnames hc hn hp hindex (hfront ht))
  | noBody ht ho hnames hc hn hb =>
    exact (declaration_titled ht).trans (untitled_noBody ho hnames hc hn (hfront ht) hb)
  | body ht ho hnames hc hn hb =>
    exact (declaration_titled ht).trans (untitled_body ho hnames hc hn (hfront ht) hb)

theorem exists_declares (rounds : Nat) (inner : Level Scan) (stop : Position) (f : Option Failure)
    (ts : List Token) : ∃ res, Declares rounds inner stop f ts res := by
  obtain ⟨name, mid, ht⟩ := exists_titled ts
  cases hopen : isMark openParen mid.head? with
  | false => exact ⟨_, .noList ht hopen⟩
  | true =>
    obtain ⟨o, us, rfl, ho⟩ : ∃ o us, mid = o :: us ∧ o.lexeme = .punctuation openParen := by
      cases mid with
      | nil => cases hopen
      | cons o us => exact ⟨o, us, rfl, isMark_some.1 hopen⟩
    rcases names_ended_or_interrupted us with
      ⟨front, c, rest, names, rfl, hc, hnames⟩ | ⟨front, left, names, rfl, hnames, hi⟩
    · by_cases hn : names.Nodup
      · cases hb : isMark openBrace rest.head? with
        | false => exact ⟨_, .noBody ht ho hnames hc hn hb⟩
        | true => exact ⟨_, .body ht ho hnames hc hn hb⟩
      · obtain ⟨earlier, param, later, rfl, he, hp⟩ := not_nodup_split hn
        obtain ⟨t, hindex, _, _⟩ := firstRepeated?_names (identifiers_names hnames) he hp
        exact ⟨_, .repeated ht ho hnames hc he hp hindex⟩
    · exact ⟨_, .interrupted ht ho hnames hi⟩

/-- A declaration reports what is wrong first: that the list of parameters is missing, where the
list cannot go on, the first parameter that repeats an earlier one, that the body is missing, or
what its body ends with. -/
theorem declares_iff (hr : ts.length < rounds) (r : Token) (inner : Level Scan) (stop : Position)
    (f : Option Failure) (res : EStateM.Result Failure Scan Node) :
    declaration rounds inner ⟨r :: ts, stop, f⟩ = res ↔ Declares rounds inner stop f ts res := by
  refine ⟨fun h => ?_, fun h => h.run hr⟩
  obtain ⟨res', hres⟩ := exists_declares rounds inner stop f ts
  have hrun : declaration rounds inner ⟨r :: ts, stop, f⟩ = res' := hres.run hr
  rwa [← h, hrun]

theorem declares_iff_repeated :
    declaration 12 (level 12 1 : Level Scan) ⟨[⟨.keyword "rule", ⟨1, 0⟩⟩, ⟨.identifier "f", ⟨1, 5⟩⟩,
        ⟨.punctuation "(", ⟨1, 6⟩⟩, ⟨.identifier "a", ⟨1, 7⟩⟩, ⟨.punctuation ",", ⟨1, 8⟩⟩,
        ⟨.identifier "b", ⟨1, 9⟩⟩, ⟨.punctuation ",", ⟨1, 10⟩⟩, ⟨.identifier "b", ⟨1, 11⟩⟩,
        ⟨.punctuation ",", ⟨1, 12⟩⟩, ⟨.identifier "a", ⟨1, 13⟩⟩, ⟨.punctuation ")", ⟨1, 14⟩⟩],
        ⟨1, 15⟩, none⟩ =
      .error (.malformed ⟨⟨1, 11⟩, .duplicateParameter "b"⟩) ⟨[], ⟨1, 15⟩, none⟩ := by
  have hnames : Names [⟨.identifier "a", ⟨1, 7⟩⟩, ⟨.punctuation ",", ⟨1, 8⟩⟩,
      ⟨.identifier "b", ⟨1, 9⟩⟩, ⟨.punctuation ",", ⟨1, 10⟩⟩, ⟨.identifier "b", ⟨1, 11⟩⟩,
      ⟨.punctuation ",", ⟨1, 12⟩⟩, ⟨.identifier "a", ⟨1, 13⟩⟩] (["a", "b"] ++ "b" :: ["a"]) :=
    .more rfl rfl (.more rfl rfl (.more rfl rfl (.last rfl)))
  refine (declares_iff (by decide) _ _ _ _ _).2 ?_
  exact .repeated (.name rfl) rfl hnames rfl (by decide) (by decide) rfl

end Declaration

end RuleLang
