import RuleLang.Proofs.Calls
import RuleLang.Proofs.Laziness

/-!
Reading makes headway. A token takes characters, a construct takes tokens, and each round of a loop
that goes on takes tokens too. What a reader of a text takes is told by the tokens that the text
has before it and behind it.
-/
namespace RuleLang

open RuleLang.Parser RuleLang.Vocabulary

theorem Cursor.advance_min (c : Cursor) (n : Nat) :
    c.advance (min n c.rest.length) = c.advance n := by
  rcases Nat.le_total n c.rest.length with h | h
  · rw [Nat.min_eq_left h]
  · rw [Nat.min_eq_right h]
    simp only [advance, List.take_of_length_le h, List.drop_eq_nil_of_le h, List.take_length,
      List.drop_length]

namespace Lexer

theorem readToken_takes {c c' : Cursor} {t : Token} (h : readToken c = .ok (some t) c') :
    ∃ n, 0 < n ∧ n ≤ c.rest.length ∧ c' = c.advance n := by
  have hshorter := (readToken_some h).1
  rcases readToken_outcome c with ⟨_, hr⟩ | ⟨_, x, n, hn, hr⟩ | ⟨cause, m, hr⟩
  · cases h.symm.trans hr
  · obtain ⟨_, rfl⟩ := EStateM.Result.ok.inj (h.symm.trans hr)
    refine ⟨min (gapLength false c.rest + n) c.rest.length, by omega, Nat.min_le_right _ _, ?_⟩
    rw [Cursor.advance_min, Cursor.advance_advance]
  · cases h.symm.trans hr

/-- From one lexer to the other as many tokens are taken, or more. -/
def Takes (k : Nat) (l l' : Lexer) : Prop :=
  ∃ used, k ≤ used.length ∧ l.scan = l'.scan.behind used

theorem Takes.mono {k n : Nat} {l l' : Lexer} (h : Takes n l l') (hk : k ≤ n) : Takes k l l' := by
  obtain ⟨used, hn, hl⟩ := h
  exact ⟨used, Nat.le_trans hk hn, hl⟩

theorem Takes.trans {k n : Nat} {l m l' : Lexer} (h : Takes k l m) (h' : Takes n m l') :
    Takes (k + n) l l' := by
  obtain ⟨xs, hk, hl⟩ := h
  obtain ⟨ys, hn, hm⟩ := h'
  refine ⟨xs ++ ys, ?_, ?_⟩
  · rw [List.length_append]
    exact Nat.add_le_add hk hn
  · rw [hl, hm, Scan.behind_append]

end Lexer

theorem length_tokenize {source : List Char} {ts : List Token} (h : tokenize source = .ok ts) :
    ts.length ≤ source.length := by
  have hlength : (Scan.ofChars source).tokens.length ≤ source.length := Scan.length_ofCursor _
  rwa [ofChars_of_tokenize h] at hlength

theorem tokenize_not_exhausted (source : List Char) : tokenize source ≠ .error .exhausted :=
  fun h => Scan.failure_ofChars source (failure_of_tokenize h)

theorem parse_not_exhausted (source : List Char) : parse source ≠ .error .exhausted := by
  intro h
  obtain ⟨left, hl⟩ := Scan.parse_error.1 (((parse_agree source).error_iff id).1 h)
  exact program_not_exhausted (Scan.failure_ofChars source) nestingLimit hl

namespace Parser

theorem takes_of_paced {α : Type} {V : α → α → Prop} {k : Nat}
    (p : ∀ (σ : Type) [TokenSource σ], Nat → Parser σ α)
    (hp : ∀ (σ τ : Type) [TokenSource σ] [TokenSource τ] {rounds rounds' : Nat},
      rounds ≤ rounds' → Lockstep (.within fun _ => True) σ τ false V (p σ rounds) (p τ rounds'))
    (hk : ∀ {n rounds : Nat}, n < rounds → Paced n k (p Scan rounds)) (rounds : Nat) {a : α}
    {l l' : Lexer} (h : p Lexer rounds l = .ok a l') : l.Takes k l' := by
  -- the outcome is the same with rounds enough, and these are enough for the list
  have hmore : rounds ≤ max rounds (l.scan.tokens.length + 1) := Nat.le_max_left _ _
  have hpaced : Paced l.scan.tokens.length k (p Scan (max rounds (l.scan.tokens.length + 1))) :=
    hk (by omega)
  generalize max rounds (l.scan.tokens.length + 1) = more at hmore hpaced
  have hsame := (Simulation.identity Lexer).run (hp Lexer Lexer hmore) (s := l) rfl
  rw [h] at hsame
  cases hq : p Lexer more l with
  | error e m =>
    rw [hq] at hsame
    exact hsame.elim
  | ok b m =>
    rw [hq] at hsame
    obtain ⟨_, rfl⟩ := hsame
    have hscan := hp Scan Scan (Nat.le_refl more)
    rcases (hp Scan Lexer (Nat.le_refl more)).onDemand
        (fun _ => hpaced.not_exhausted (Nat.le_refl _) l.failure_scan) with
      ⟨a', b', m', hs, hl, _⟩ | ⟨e, s, f, m', hs, hl, _⟩
    · obtain ⟨_, rfl⟩ := EStateM.Result.ok.inj (hq.symm.trans hl)
      exact hscan.takes hpaced (Nat.le_refl _) l.failure_scan hs
    · cases hq.symm.trans hl

section Readers

variable {σ : Type} [TokenSource σ] {α : Type}

def constructs (rounds depth : Nat) : List (Parser σ Node) :=
  let inner := level rounds depth
  [inner.expression, inner.operand, group inner, block rounds inner, declaration rounds inner,
    signed inner]

/-- The next item of a list, unless the list stops here instead. -/
def dueItem (stop : String) (item : Parser σ α) : Parser σ (Option α) := do
  if isMark stop (← peek) then return none
  return some (← item)

def itemRound (stop separator : String) (item : Parser σ α) (first : Bool) :
    Parser σ (Option α) := do
  let t ← peek
  if t.isNone || isMark stop t then return none
  unless first do
    let _ ← expectPunctuation separator
  dueItem stop item

def bindingRound (operand : Parser σ Node) (rounds : Nat) (left : Node) (least : Int) :
    Parser σ (Option Node) := do
  match operatorText? (← peek) with
  | none => return none
  | some op =>
    match bindingPower? op with
    | none => fail (.unknownOperator op)
    | some power =>
      if power ≤ least then return none
      let _ ← next
      let right ← bindings operand rounds (← operand) power
      return some (Node.joined op left right)

def statementRound (statement : Parser σ Node) : Parser σ (Option Node) := do
  if (← peek).isNone then return none
  let node ← statement
  unless (← peek).isNone do
    let _ ← expectPunctuation semicolon
  return some node

/-- A loop that goes on after a round unless that was the last. -/
def rounded {β : Type} (round : Parser σ (Option α)) (done : Parser σ β) (more : α → Parser σ β) :
    Parser σ β := do
  match ← round with
  | none => done
  | some a => more a

omit [TokenSource σ] in
theorem rounded_bind {β γ : Type} (p : Parser σ γ) (f : γ → Parser σ (Option α))
    (done : Parser σ β) (more : α → Parser σ β) :
    rounded (p >>= f) done more = p >>= fun c => rounded (f c) done more := bind_assoc _ _ _

theorem itemsFrom_rounded (stop separator : String) (item : Parser σ α) (rounds : Nat) :
    itemsFrom stop separator item rounds = rounded (dueItem stop item) (return [])
      (fun x => do return x :: (← items stop separator item rounds false)) := by
  rw [itemsFrom, dueItem, rounded_bind]
  refine bind_congr fun t => ?_
  split
  · rfl
  · rw [rounded_bind]
    rfl

theorem items_rounded (stop separator : String) (item : Parser σ α) (rounds : Nat) (first : Bool) :
    items stop separator item (rounds + 1) first =
      rounded (itemRound stop separator item first) (return [])
        (fun x => do return x :: (← items stop separator item rounds false)) := by
  rw [itemRound, rounded_bind]
  cases first with
  | true =>
    rw [items_first, itemsFrom_rounded]
    refine bind_congr fun t => ?_
    split <;> rfl
  | false =>
    rw [items_later, itemsFrom_rounded]
    refine bind_congr fun t => ?_
    split
    · rfl
    · exact (rounded_bind _ _ _ _).symm

theorem bindings_rounded (operand : Parser σ Node) (rounds : Nat) (left : Node) (least : Int) :
    bindings operand (rounds + 1) left least =
      rounded (bindingRound operand rounds left least) (return left)
        (fun joined => bindings operand rounds joined least) := by
  rw [bindings_succ, bindingRound, rounded_bind]
  refine bind_congr fun t => ?_
  cases operatorText? t with
  | none => rfl
  | some op =>
    cases hp : bindingPower? op with
    | none =>
      simp only [hp]
      rfl
    | some power =>
      simp only [hp]
      split
      · rfl
      · simp only [rounded_bind]
        rfl

theorem statements_rounded (statement : Parser σ Node) (rounds : Nat) :
    statements statement (rounds + 1) = rounded (statementRound statement) (return [])
      (fun node => do return node :: (← statements statement rounds)) := by
  rw [statements_succ, statementRound, rounded_bind]
  refine bind_congr fun t => ?_
  split
  · rfl
  · rw [rounded_bind]
    refine bind_congr fun node => ?_
    rw [rounded_bind]
    refine bind_congr fun t => ?_
    split
    · rfl
    · rw [rounded_bind]
      rfl

end Readers

section Texts

variable {l l' : Lexer} {rounds depth : Nat} {α : Type}

theorem peek_takes {t : Option Token} (h : (peek : Parser Lexer (Option Token)) l = .ok t l') :
    l.Takes 0 l' := by
  rw [← bind_pure (peek : Parser Lexer (Option Token))] at h
  exact takes_of_paced (fun σ _ _ => (peek >>= pure : Parser σ (Option Token)))
    (fun _ _ _ _ _ _ _ => .look fun _ _ h => .pure h) (fun _ => .look fun t => .pure t)
    0 h

theorem next_takes {t : Option Token} (h : (next : Parser Lexer (Option Token)) l = .ok t l') :
    l.Takes 0 l' :=
  takes_of_paced (fun σ _ _ => (next : Parser σ (Option Token))) (fun _ _ _ _ _ _ _ => .next)
    (fun _ => .next) 0 h

theorem expectPunctuation_takes {text : String} {t : Token}
    (h : (expectPunctuation text : Parser Lexer Token) l = .ok t l') : l.Takes 1 l' :=
  takes_of_paced (fun σ _ _ => (expectPunctuation text : Parser σ Token))
    (fun _ _ _ _ _ _ _ => expectPunctuation_lockstep text) (fun _ => .expect _ _) 0 h

theorem itemReader_takes (reader : ItemReader) {n : Node}
    (h : Call.itemReader (level rounds depth : Level Lexer) reader l = .ok n l') : l.Takes 1 l' :=
  takes_of_paced (fun σ _ rounds => Call.itemReader (level rounds depth : Level σ) reader)
    (fun _ _ _ _ _ _ hr => Call.itemReader_lockstep (level_lockstep hr depth) reader)
    (fun hn => Call.itemReader_paced (level_paced hn depth) reader) rounds h

theorem bindings_takes {more : Nat} {left n : Node} {least : Int}
    (h : bindings (level more depth : Level Lexer).operand rounds left least l = .ok n l') :
    l.Takes 0 l' := by
  have hself : left.Matches (.within fun _ => True) left :=
    left.matches_self (fun _ => rfl) fun _ _ => ⟨rfl, trivial⟩
  exact takes_of_paced
    (fun σ _ k => bindings (level (more + k) depth : Level σ).operand (rounds + k) left least)
    (fun _ _ _ _ _ _ hk => bindings_lockstep (level_lockstep (by omega) depth).operand
      (Nat.add_le_add_left hk rounds) hself least)
    (fun hn => bindings_paced (level_paced (by omega) depth).operand (by omega) left least) 0 h

theorem constructs_take {p : Parser Lexer Node} (hp : p ∈ constructs rounds depth) {n : Node}
    (h : p l = .ok n l') : l.Takes 1 l' := by
  simp only [constructs, List.mem_cons, List.not_mem_nil, or_false] at hp
  rcases hp with rfl | rfl | rfl | rfl | rfl | rfl
  · exact itemReader_takes .expression h
  · exact itemReader_takes .operand h
  · exact takes_of_paced (fun σ _ rounds => group (level rounds depth : Level σ))
      (fun _ _ _ _ _ _ hr => group_lockstep (level_lockstep hr depth))
      (fun hn => group_paced (level_paced hn depth)) rounds h
  · exact takes_of_paced (fun σ _ rounds => block rounds (level rounds depth : Level σ))
      (fun _ _ _ _ _ _ hr => block_lockstep (level_lockstep hr depth) hr)
      (fun hn => block_paced (level_paced hn depth) hn) rounds h
  · exact takes_of_paced (fun σ _ rounds => declaration rounds (level rounds depth : Level σ))
      (fun _ _ _ _ _ _ hr => declaration_lockstep (level_lockstep hr depth) hr)
      (fun hn => declaration_paced (level_paced hn depth) hn) rounds h
  · exact takes_of_paced (fun σ _ rounds => signed (level rounds depth : Level σ))
      (fun _ _ _ _ _ _ hr => signed_lockstep (level_lockstep hr depth))
      (fun hn => signed_paced (level_paced hn depth)) rounds h

theorem dueItem_takes {stop : String} {reader : ItemReader} {n : Node}
    (h : dueItem stop (Call.itemReader (level rounds depth) reader) l = .ok (some n) l') :
    l.Takes 1 l' := by
  obtain ⟨t, m, hm, h⟩ := bind_ok.1 h
  split at h
  · cases h
  · obtain ⟨x, m', hx, h⟩ := bind_ok.1 h
    obtain ⟨_, rfl⟩ := EStateM.Result.ok.inj h
    exact (peek_takes hm).trans (itemReader_takes reader hx)

theorem itemRound_takes {stop separator : String} {reader : ItemReader} {first : Bool} {n : Node}
    (h : itemRound stop separator (Call.itemReader (level rounds depth) reader) first l =
      .ok (some n) l') : l.Takes 1 l' := by
  obtain ⟨t, m, hm, h⟩ := bind_ok.1 h
  split at h
  · cases h
  · have hl := peek_takes hm
    cases first with
    | true => exact hl.trans (dueItem_takes h)
    | false =>
      obtain ⟨s, m', hs, h⟩ := bind_ok.1 h
      exact ((hl.trans (expectPunctuation_takes hs)).trans (dueItem_takes h)).mono (by omega)

theorem bindingRound_takes {more : Nat} {left n : Node} {least : Int}
    (h : bindingRound (level more depth : Level Lexer).operand rounds left least l =
      .ok (some n) l') : l.Takes 1 l' := by
  obtain ⟨t, m, hm, h⟩ := bind_ok.1 h
  cases ht : operatorText? t with
  | none =>
    rw [ht] at h
    cases h
  | some op =>
    rw [ht] at h
    dsimp only at h
    cases hp : bindingPower? op with
    | none =>
      simp only [hp] at h
      cases h
    | some power =>
      simp only [hp] at h
      split at h
      · cases h
      · obtain ⟨u, m₁, hu, h⟩ := bind_ok.1 h
        obtain ⟨d, m₂, hd, h⟩ := bind_ok.1 h
        obtain ⟨right, m₃, hright, h⟩ := bind_ok.1 h
        obtain ⟨_, rfl⟩ := EStateM.Result.ok.inj h
        have hoperand : m₁.Takes 1 m₂ := itemReader_takes .operand hd
        exact ((peek_takes hm).trans (next_takes hu)).trans
          (hoperand.trans (bindings_takes hright))

theorem statementRound_takes {n : Node}
    (h : statementRound (level rounds depth : Level Lexer).expression l = .ok (some n) l') :
    l.Takes 1 l' := by
  obtain ⟨t, m, hm, h⟩ := bind_ok.1 h
  split at h
  · cases h
  · obtain ⟨x, m₁, hx, h⟩ := bind_ok.1 h
    obtain ⟨u, m₂, hu, h⟩ := bind_ok.1 h
    have hstatement : m.Takes 1 m₁ := itemReader_takes .expression hx
    have hl := ((peek_takes hm).trans hstatement).trans (peek_takes hu)
    split at h
    · obtain ⟨_, rfl⟩ := EStateM.Result.ok.inj h
      exact hl
    · obtain ⟨s, m₃, hs, h⟩ := bind_ok.1 h
      obtain ⟨_, rfl⟩ := EStateM.Result.ok.inj h
      exact (hl.trans (expectPunctuation_takes hs)).mono (by omega)

/-- The loop goes round by round, and each round that goes on takes a token. -/
structure ByRounds {β : Type} (loop : Parser Lexer β) (round : Parser Lexer (Option α))
    (done : Parser Lexer β) (more : α → Parser Lexer β) : Prop where
  rounded : loop = rounded round done more
  takes : ∀ l a l', round l = .ok (some a) l' → l.Takes 1 l'

theorem items_by_rounds (stop separator : String) (reader : ItemReader) (left : Nat)
    (first : Bool) :
    let item : Parser Lexer Node := Call.itemReader (level rounds depth) reader
    ByRounds (items stop separator item (left + 1) first) (itemRound stop separator item first)
      (return []) (fun x => do return x :: (← items stop separator item left false)) :=
  ⟨items_rounded stop separator _ left first, fun _ _ _ => itemRound_takes⟩

theorem bindings_by_rounds (left : Nat) (node : Node) (least : Int) :
    let operand : Parser Lexer Node := (level rounds depth).operand
    ByRounds (bindings operand (left + 1) node least) (bindingRound operand left node least)
      (return node) (fun joined => bindings operand left joined least) :=
  ⟨bindings_rounded _ left node least, fun _ _ _ => bindingRound_takes⟩

theorem statements_by_rounds (left : Nat) :
    let statement : Parser Lexer Node := (level rounds depth).expression
    ByRounds (statements statement (left + 1)) (statementRound statement) (return [])
      (fun node => do return node :: (← statements statement left)) :=
  ⟨statements_rounded _ left, fun _ _ _ => statementRound_takes⟩

end Texts

end Parser

end RuleLang
