import RuleLang.Proofs.Fairness
import RuleLang.Proofs.Rounds
import RuleLang.Session

/-!
Calls on two sources. The steps of a session that use tokens are calls; the others read the text.
Calls about corresponding nodes are in lockstep on any two sources, and none of them runs out of
rounds.
-/
namespace RuleLang

open RuleLang.Parser

namespace Call

section Readers

variable {σ : Type} [TokenSource σ]

theorem perform_eq (c : Call) (s : σ) : c.perform s = c.reader (TokenSource.size s + 1) s := rfl

def step (c : Call) (s : σ) : Outcome × σ :=
  match c.perform s with
  | .ok a s' => (.ok a, s')
  | .error e s' => (.error e, s')

def run : List Call → σ → List Outcome × σ
  | [], s => ([], s)
  | c :: cs, s => ((c.step s).1 :: (run cs (c.step s).2).1, (run cs (c.step s).2).2)

end Readers

theorem perform_step {history : List Outcome} {s : Step} {c : Call}
    (h : s.call? history = some c) : Session.perform history s = c.perform := by
  rw [Session.perform, h]

theorem perform_onText {history : List Outcome} {s : Step} (h : s.call? history = none) :
    Session.perform history s = Session.onText history s := by
  rw [Session.perform, h]

end Call

/-- Answers of the same kind, about corresponding tokens and nodes. -/
inductive Answer.Matches (c : Correspondence) : Answer → Answer → Prop
  | done : Matches c .done .done
  | flag (value : Bool) : Matches c (.flag value) (.flag value)
  | character (x : Option Char) : Matches c (.character x) (.character x)
  | text (s : String) : Matches c (.text s) (.text s)
  | number (x : Number) : Matches c (.number x) (.number x)
  | token {t u : Option Token} : Option.Rel c.token t u → Matches c (.token t) (.token u)
  | node {n m : Node} : n.Matches c m → Matches c (.node n) (.node m)
  | nodes {ns ms : List Node} :
    List.Forall₂ (Node.Matches c) ns ms → Matches c (.nodes ns) (.nodes ms)

theorem Answer.matches_node {c : Correspondence} {n m : Node}
    (h : Answer.Matches c (.node n) (.node m)) : n.Matches c m := by
  cases h with
  | node h => exact h

theorem Answer.matches_nodes {c : Correspondence} {ns ms : List Node}
    (h : Answer.Matches c (.nodes ns) (.nodes ms)) : Node.MatchesAll c ns ms := by
  cases h with
  | nodes h => exact Node.matchesAll_iff.2 h

theorem Answer.eq_of_matches {places : Position → Prop} {a b : Answer}
    (h : a.Matches (.within places) b) : a = b := by
  cases h with
  | @token t u h =>
    cases h with
    | none => rfl
    | some h => rw [h.1]
  | node h => rw [Node.eq_of_matches h]
  | nodes h => rw [Node.eq_of_matchesAll (Node.matchesAll_iff.2 h)]
  | _ => rfl

namespace Call

def Matches (c : Correspondence) : Call → Call → Prop
  | invocation n, invocation m => n.Matches c m
  | bindings n k, bindings m l => n.Matches c m ∧ k = l
  | x, y => x = y

def node? : Call → Option Node
  | invocation n => some n
  | bindings n _ => some n
  | _ => none

theorem matches_self {c : Correspondence} (hname : ∀ a, c.name a a) {call : Call}
    (h : ∀ n ∈ call.node?, ∀ t ∈ n.leaves, c.token t t) : call.Matches c call := by
  cases call with
  | invocation n => exact n.matches_self hname (h n rfl)
  | bindings n k => exact ⟨n.matches_self hname (h n rfl), rfl⟩
  | _ => exact rfl

section Lockstep

variable {σ τ : Type} [TokenSource σ] [TokenSource τ] {ready : Bool} {α β γ δ : Type}
  {c : Correspondence} {V : α → β → Prop} {W : γ → δ → Prop}

theorem map_lockstep {p : Parser σ α} {q : Parser τ β} {f : α → γ} {g : β → δ}
    (h : Lockstep c σ τ ready V p q) (hf : ∀ a b, V a b → W (f a) (g b)) :
    Lockstep c σ τ ready W (f <$> p) (g <$> q) := by
  rw [map_eq_pure_bind, map_eq_pure_bind]
  exact .bind h fun a b hab => .pure (hf a b hab)

theorem itemReader_lockstep {inner : Level σ} {inner' : Level τ} (hi : inner.Lockstep c inner')
    (item : ItemReader) :
    Lockstep c σ τ false (Node.Matches c) (itemReader inner item) (itemReader inner' item) := by
  cases item with
  | expression => exact hi.expression
  | operand => exact hi.operand
  | identifier => exact map_lockstep expectIdentifier_lockstep fun _ _ h => h.1

theorem reader_matches {rounds rounds' : Nat} (hr : rounds ≤ rounds') {x y : Call}
    (h : x.Matches c y) :
    Lockstep c σ τ false (Answer.Matches c) (x.reader rounds) (y.reader rounds') := by
  have hi : Level.Lockstep c (level rounds nestingLimit : Level σ)
      (level rounds' nestingLimit : Level τ) := level_lockstep hr nestingLimit
  have node {p : Parser σ Node} {q : Parser τ Node}
      (h : Lockstep c σ τ false (Node.Matches c) p q) :
      Lockstep c σ τ false (Answer.Matches c) (Answer.node <$> p) (Answer.node <$> q) :=
    map_lockstep h fun _ _ => .node
  have nodes {p : Parser σ (List Node)} {q : Parser τ (List Node)}
      (h : Lockstep c σ τ false (List.Forall₂ (Node.Matches c)) p q) :
      Lockstep c σ τ false (Answer.Matches c) (Answer.nodes <$> p) (Answer.nodes <$> q) :=
    map_lockstep h fun _ _ => .nodes
  have taken {P : Token → Token → Prop} {p : Parser σ Token} {q : Parser τ Token}
      (h : Lockstep c σ τ false (fun t u => c.token t u ∧ P t u) p q) :
      Lockstep c σ τ false (Answer.Matches c) ((Answer.token ∘ some) <$> p)
        ((Answer.token ∘ some) <$> q) :=
    map_lockstep h fun t u h => .token (.some h.1)
  -- only the two calls about a node can differ
  cases x with
  | invocation n =>
    cases y with
    | invocation m => exact node (invocation_lockstep hi.expression hr h)
    | _ => cases h
  | bindings n k =>
    cases y with
    | bindings m l =>
      obtain ⟨h, rfl⟩ := h
      exact node (bindings_lockstep hi.operand hr h k)
    | _ => cases h
  | peekToken =>
    obtain rfl : peekToken = y := h
    rw [reader, reader, map_eq_pure_bind, map_eq_pure_bind]
    exact .look fun t u h => .pure (.token h)
  | nextToken =>
    obtain rfl : nextToken = y := h
    exact map_lockstep .next fun t u => .token
  | noTokens =>
    obtain rfl : noTokens = y := h
    refine .look fun t u h => .pure ?_
    rw [isNone_eq h]
    exact .flag _
  | program =>
    obtain rfl : program = y := h
    exact nodes (program_lockstep hr nestingLimit)
  | expression =>
    obtain rfl : expression = y := h
    exact node hi.expression
  | operand =>
    obtain rfl : operand = y := h
    exact node hi.operand
  | group =>
    obtain rfl : group = y := h
    exact node (group_lockstep hi)
  | block =>
    obtain rfl : block = y := h
    exact node (block_lockstep hi hr)
  | declaration =>
    obtain rfl : declaration = y := h
    exact node (declaration_lockstep hi hr)
  | signed =>
    obtain rfl : signed = y := h
    exact node (signed_lockstep hi)
  | delimited start stop separator item =>
    obtain rfl : delimited start stop separator item = y := h
    exact nodes (delimited_lockstep start stop separator (itemReader_lockstep hi item) hr)
  | expectPunctuation text =>
    obtain rfl : expectPunctuation text = y := h
    exact taken (expectPunctuation_lockstep text)
  | expectIdentifier =>
    obtain rfl : expectIdentifier = y := h
    exact taken expectIdentifier_lockstep
  | expectOperator choices =>
    obtain rfl : expectOperator choices = y := h
    exact taken (expectOperator_lockstep choices)
  | unexpected =>
    obtain rfl : unexpected = y := h
    exact unexpected_lockstep

theorem reader_lockstep {rounds rounds' : Nat} (hr : rounds ≤ rounds') (call : Call) :
    Lockstep (.within fun _ => True) σ τ false Eq (call.reader rounds) (call.reader rounds') := by
  have hself : call.Matches (.within fun _ => True) call :=
    matches_self (fun _ => rfl) fun _ _ _ _ => ⟨rfl, trivial⟩
  have h := map_lockstep (reader_matches hr hself (σ := σ) (τ := τ)) (f := id) (g := id)
    fun _ _ => Answer.eq_of_matches
  simpa only [id_map] using h

end Lockstep

section Scans

variable {α β : Type} {n k : Nat}

theorem map_paced {p : Parser Scan α} (h : Paced n k p) (f : α → β) : Paced n k (f <$> p) := by
  rw [map_eq_pure_bind]
  exact h.then fun a _ => .pure (f a)

theorem itemReader_paced {inner : Level Scan} (hi : inner.Paced n) (item : ItemReader) :
    Paced n 1 (itemReader inner item) := by
  cases item with
  | expression => exact hi.expression
  | operand => exact hi.operand
  | identifier => exact map_paced (.expect _ _) _

theorem reader_paced {rounds : Nat} (hn : n < rounds) (c : Call) :
    Paced n 0 (c.reader rounds : Parser Scan Answer) := by
  have hi : (level rounds nestingLimit : Level Scan).Paced n := level_paced hn nestingLimit
  cases c with
  | peekToken =>
    rw [reader, map_eq_pure_bind]
    exact .look fun t => .pure _
  | nextToken => exact map_paced .next _
  | noTokens => exact .look fun t => .pure _
  | program => exact map_paced (statements_paced hi.expression hn) _
  | expression => exact (map_paced hi.expression _).free
  | operand => exact (map_paced hi.operand _).free
  | group => exact (map_paced (group_paced hi) _).free
  | block => exact (map_paced (block_paced hi hn) _).free
  | declaration => exact (map_paced (declaration_paced hi hn) _).free
  | signed => exact (map_paced (signed_paced hi) _).free
  | invocation callee => exact map_paced (invocation_paced hi.expression hn callee) _
  | bindings left least => exact map_paced (bindings_paced hi.operand hn left least) _
  | delimited start stop separator item =>
    exact (map_paced (delimited_paced start stop separator (itemReader_paced hi item) hn) _).free
  | expectPunctuation text | expectIdentifier | expectOperator choices =>
    exact (map_paced (.expect _ _) _).free
  | unexpected => exact .unexpected

theorem perform_not_exhausted {s s' : Scan} (hs : s.failure ≠ some .exhausted) (c : Call) :
    c.perform s ≠ .error .exhausted s' :=
  (c.reader_paced (Nat.lt_succ_self s.tokens.length)).not_exhausted (Nat.le_refl _) hs

theorem map_fair {p : Parser Scan α} (h : Fair p) (f : α → β) : Fair (f <$> p) := by
  rw [map_eq_pure_bind]
  exact h.bind fun a => .pure (f a)

theorem itemReader_fair {inner : Level Scan} (hi : inner.Fair) (item : ItemReader) :
    Fair (itemReader inner item) := by
  have hname : Fair Parser.expectIdentifier := .expect _ trivial
  cases item with
  | expression => exact hi.expression
  | operand => exact hi.operand
  | identifier => exact map_fair hname _

theorem reader_fair (rounds : Nat) {c : Call} (hc : c ≠ .unexpected) :
    Fair (c.reader rounds : Parser Scan Answer) := by
  have hi := level_fair rounds nestingLimit
  have expected (wanted : Lexeme → Bool) {cause : Cause} (h : cause.Fair) :
      Fair ((Answer.token ∘ some) <$> expect wanted cause : Parser Scan Answer) :=
    map_fair (.expect wanted h) _
  cases c with
  | peekToken =>
    rw [reader, map_eq_pure_bind]
    exact .look fun t => .pure _
  | nextToken => exact map_fair .next _
  | noTokens => exact .look fun t => .pure _
  | program => exact map_fair (statements_fair hi.expression rounds) _
  | expression => exact map_fair hi.expression _
  | operand => exact map_fair hi.operand _
  | group => exact map_fair (group_fair hi) _
  | block => exact map_fair (block_fair hi rounds) _
  | declaration => exact map_fair (declaration_fair hi rounds) _
  | signed => exact map_fair (signed_fair hi) _
  | invocation callee => exact map_fair (invocation_fair hi.expression rounds callee) _
  | bindings left least => exact map_fair (bindings_fair hi.operand rounds left least) _
  | delimited start stop separator item =>
    exact map_fair (delimited_fair rounds start stop separator (itemReader_fair hi item)) _
  | expectPunctuation text | expectIdentifier | expectOperator choices => exact expected _ trivial
  | unexpected => exact absurd rfl hc

end Scans

end Call

end RuleLang
