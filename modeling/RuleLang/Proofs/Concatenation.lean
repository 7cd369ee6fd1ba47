import RuleLang.Proofs.Continuation
import RuleLang.Proofs.ReadingOrder
import RuleLang.Proofs.Seam
import RuleLang.Proofs.Standing

/-!
Sources one behind the other. A source that is accepted can be put in front of another one: a line
feed ends its last token or its last comment, and a semicolon its last statement unless it has one
there. What follows is then read as if it stood alone, further down.
-/
namespace RuleLang

open RuleLang.Vocabulary RuleLang.Parser Alphabet Lexer

/-- Whether no statement is open behind the tokens. -/
def Finished (ts : List Token) : Prop := ∀ t ∈ ts.getLast?, t.lexeme = .punctuation semicolon

instance (ts : List Token) : Decidable (Finished ts) :=
  inferInstanceAs (Decidable (∀ t ∈ ts.getLast?, t.lexeme = .punctuation semicolon))

theorem finished_nil : Finished [] := by
  simp [Finished]

/-- What a source with these tokens needs behind it before another one may follow. -/
def glue (ts : List Token) : List Char :=
  if Finished ts then [lineFeed] else [lineFeed, ';', lineFeed]

/-- Tokens that end a statement behind others, unless none is open. -/
inductive Joint (ts : List Token) : List Token → Prop
  | finished : Finished ts → Joint ts []
  | mark {t : Token} : ¬ Finished ts → t.lexeme = .punctuation semicolon → Joint ts [t]

theorem passes_glue {source : List Char} {ts : List Token} (h : tokenize source = .ok ts)
    (more : List Char) :
    ∃ js c gap, Joint ts js ∧ Passes (.ofChars (source ++ glue ts ++ more)) (ts ++ js) c ∧
      c.rest = gap ++ more ∧ Gap gap ∧
      c.position.afterAll gap = Position.start.afterAll (source ++ glue ts) := by
  obtain ⟨p, behind, hm, hf⟩ := munches_of_tokenize h
  unfold glue
  split
  · next hts =>
    obtain ⟨c, gap, hc, hrest, hg, hp⟩ := hm.passes_line hf more
    rw [List.append_assoc]
    exact ⟨[], c, gap, .finished hts, by rwa [List.append_nil], hrest, hg, hp⟩
  · next hts =>
    obtain ⟨c, gap, hc, hrest, hg, hp⟩ := hm.passes_line hf (';' :: lineFeed :: more)
    have hsplit : c.rest = gap ++ [';'] ++ lineFeed :: more := by
      rw [hrest, List.append_assoc, List.singleton_append]
    have hread := readToken_spelling hsplit hg (.punctuation (by decide)) trivial
    rw [List.append_assoc]
    refine ⟨_, _, [lineFeed], .mark hts rfl, hc.snoc hread, rest_advance hsplit, .line, ?_⟩
    rw [position_advance hsplit, Position.afterAll_append c.position, hp,
      ← Position.afterAll_append, ← Position.afterAll_append]
    simp only [List.append_assoc, List.cons_append, List.nil_append]

theorem finished_append {t : Token} {us ts : List Token} (ht : t.lexeme = .punctuation semicolon) :
    Finished (us ++ t :: ts) ↔ Finished ts := by
  cases ts with
  | nil => simp [Finished, ht]
  | cons u ts => simp [Finished, List.getLast?_append, List.getLast?_cons_cons]

theorem Joint.tail {t : Token} {us ts js : List Token} (ht : t.lexeme = .punctuation semicolon)
    (h : Joint (us ++ t :: ts) js) : Joint ts js := by
  cases h with
  | finished hf => exact .finished ((finished_append ht).1 hf)
  | mark hf hj => exact .mark (mt (finished_append ht).2 hf) hj

theorem Accounts.awaits {unary after : Bool} {ps : List Piece} {ts : List Token} {t : Token}
    (h : Accounts unary ps ts after []) (ht : ts.getLast? = some t) : t.awaitsOperand = after := by
  generalize hr : ([] : List Token) = rest at h
  induction h with
  | refl =>
    subst hr
    cases ht
  | @token _ _ u _ _ us _ _ h ih =>
    cases us with
    | nil =>
      obtain rfl : u = t := Option.some.inj ht
      cases h
      rfl
    | cons v us => exact ih (by rwa [List.getLast?_cons_cons] at ht) hr

theorem Parser.Reads.not_finished {n : Node} {ts : List Token} (h : Reads (.expression n) ts []) :
    ¬ Finished ts := by
  intro hf
  have hne : ts ≠ [] := by
    rintro rfl
    exact absurd h.length_le (Nat.not_succ_le_self _)
  have hlast := List.getLast?_eq_getLast_of_ne_nil hne
  have hawaits := Accounts.awaits h.accounted hlast
  rw [Token.awaitsOperand_punctuation (hf _ hlast)] at hawaits
  exact absurd hawaits (by decide)

namespace Parser

variable {σ τ : Type} [TokenSource σ] [TokenSource τ]

def terminated (statement : Parser σ Node) : Parser σ (Option Node) := do
  let t ← peek
  if t.isNone then return none
  let node ← statement
  let t ← peek
  if t.isNone then return some node
  let _ ← expectPunctuation semicolon
  return some node

def leading (statement : Parser σ Node) : Nat → Parser σ (List Node)
  | 0 => return []
  | count + 1 => do
    match ← terminated statement with
    | none => return []
    | some node => return node :: (← leading statement count)

theorem statements_terminated (statement : Parser σ Node) (rounds : Nat) :
    statements statement (rounds + 1) = (do
      match ← terminated statement with
      | none => return []
      | some node =>
        let nodes ← statements statement rounds
        return node :: nodes) := by
  rw [statements_succ, terminated]
  simp only [bind_assoc]
  congr 1
  funext t
  split
  · rfl
  · simp only [bind_assoc]
    congr 1
    funext node
    congr 1
    funext t
    split
    · rfl
    · simp only [bind_assoc, pure_bind]

theorem statements_leading {statement : Parser σ Node} {nodes : List Node} {s s' : σ}
    (h : leading statement nodes.length s = .ok nodes s') (rounds : Nat) :
    statements statement (rounds + nodes.length) s =
      (do let more ← statements statement rounds; return nodes ++ more) s' := by
  induction nodes generalizing s with
  | nil =>
    obtain ⟨-, rfl⟩ := EStateM.Result.ok.inj h
    exact congrFun (bind_pure (statements statement rounds)).symm s
  | cons node nodes ih =>
    obtain ⟨first, m, hfirst, h⟩ := bind_ok.1 h
    cases first with
    | none => cases h
    | some first =>
      obtain ⟨others, m', hothers, hall⟩ := bind_ok.1 h
      obtain ⟨heq, rfl⟩ := EStateM.Result.ok.inj hall
      obtain ⟨rfl, rfl⟩ := List.cons.inj heq
      rw [List.length_cons, ← Nat.add_assoc, statements_terminated, bind_of_ok hfirst]
      simp only [bind, EStateM.bind, ih hothers]
      cases statements statement rounds m' <;> rfl

section Lockstep

variable {c : Correspondence} {statement : Parser σ Node} {statement' : Parser τ Node}

theorem terminated_lockstep {ready : Bool}
    (hs : Lockstep c σ τ false (Node.Matches c) statement statement') :
    Lockstep c σ τ ready (Option.Rel (Node.Matches c)) (terminated statement)
      (terminated statement') := by
  apply Lockstep.look
  intro t u h
  rw [isNone_eq h]
  split
  · exact .pure .none
  · refine .bind hs.weaken fun node node' hn => Lockstep.look ?_
    intro t u h
    rw [isNone_eq h]
    split
    · exact .pure (.some hn)
    · exact .bind (expectPunctuation_lockstep semicolon) fun _ _ _ => .pure (.some hn)

theorem leading_lockstep (hs : Lockstep c σ τ false (Node.Matches c) statement statement')
    (count : Nat) : Lockstep c σ τ false (List.Forall₂ (Node.Matches c)) (leading statement count)
      (leading statement' count) := by
  induction count with
  | zero => exact .pure .nil
  | succ count ih =>
    refine .bind (terminated_lockstep hs) fun node node' hn => ?_
    cases hn with
    | none => exact .pure .nil
    | some hn => exact .bind ih fun nodes nodes' h => .pure (.cons hn h)

end Lockstep

theorem terminated_none {statement : Parser Scan Node} {s left : Scan} (hs : s.failure = none)
    (h : terminated statement s = .ok none left) : s.tokens = [] := by
  rw [terminated, look_of_finished hs] at h
  split at h
  · next hnone => exact List.head?_eq_none_iff.1 (Option.isNone_iff_eq_none.1 hnone)
  · obtain ⟨node, mid, -, hmark⟩ := bind_ok.1 h
    obtain ⟨t, m, -, hmark⟩ := bind_ok.1 hmark
    split at hmark
    · cases hmark
    · obtain ⟨_, _, -, hnone⟩ := bind_ok.1 hmark
      cases hnone

theorem terminated_mark {statement : Parser Scan Node} {other : Scan} {used : List Token}
    {t : Token} {node : Node} (hne : used ≠ []) (ht : t.lexeme = .punctuation semicolon)
    (h : statement ((other.behind [t]).behind used) = .ok node (other.behind [t])) :
    terminated statement ((other.behind [t]).behind used) = .ok (some node) other := by
  obtain ⟨u, used, rfl⟩ := List.exists_cons_of_ne_nil hne
  have hmark : expectPunctuation semicolon (other.behind [t]) = .ok t other := by
    simp only [expectPunctuation, Scan.behind, List.singleton_append, expect_cons, ht,
      decide_true, if_true]
  rw [terminated, look_of_head (t := u) rfl, Option.isNone_some, if_neg Bool.false_ne_true,
    bind_of_ok h, look_of_head (t := t) rfl, Option.isNone_some]
  exact bind_of_ok hmark _

theorem terminated_joined {rounds depth : Nat} {s left : Scan} {node : Node}
    (hs : s.failure = none)
    (h : terminated (level rounds depth).expression s = .ok (some node) left) :
    left.failure = none ∧ left.tokens.length < s.tokens.length ∧
      ∀ js, Joint s.tokens js → ∃ js', Joint left.tokens js' ∧ ∀ other : Scan,
        terminated (level rounds depth).expression (other.behind (s.tokens ++ js)) =
          .ok (some node) (other.behind (left.tokens ++ js')) := by
  rw [terminated, look_of_finished hs] at h
  split at h
  · cases h
  obtain ⟨n, mid, hn, hmark⟩ := bind_ok.1 h
  have hx := (level_persists rounds depth).expression _ s n mid rfl hs hn
  have hmid := hx.failure hs
  obtain ⟨used, hne, rfl, hother⟩ := hx
  rw [look_of_finished hmid] at hmark
  obtain ⟨ts, stop, e⟩ := mid
  obtain rfl : e = none := hmid
  -- the statement ends with the text, where the joint can end it, or at its own semicolon
  cases ts with
  | nil =>
    obtain ⟨hnode, rfl⟩ := EStateM.Result.ok.inj hmark
    obtain rfl : n = node := Option.some.inj hnode
    obtain ⟨rest, hrest, hread⟩ := (level_yields rounds depth).expression used stop n _
      (by simpa [Scan.behind] using hn)
    obtain rfl := (Scan.mk.inj hrest).1
    have htokens : (Scan.behind used ⟨[], stop, none⟩).tokens = used := List.append_nil used
    rw [htokens]
    refine ⟨rfl, List.length_pos_iff.2 (hne rfl), fun js hj => ?_⟩
    cases hj with
    | finished hf => exact absurd hf hread.not_finished
    | @mark t _ ht =>
      refine ⟨[], .finished finished_nil, fun other => ?_⟩
      have hview : SameView [] (other.behind [t]).tokens :=
        .of_closes closes_nil (closes_separator ht (by decide) _)
      rw [Scan.behind_append]
      exact terminated_mark (hne rfl) ht (hother _ hview (List.cons_ne_nil t _))
  | cons t ts =>
    obtain ⟨u, m, hu, hnode⟩ := bind_ok.1 hmark
    obtain ⟨hn', rfl⟩ := EStateM.Result.ok.inj hnode
    obtain rfl : n = node := Option.some.inj hn'
    rw [expectPunctuation, expect_cons] at hu
    split at hu
    · next ht =>
      obtain ⟨-, rfl⟩ := EStateM.Result.ok.inj hu
      have ht : t.lexeme = .punctuation semicolon := of_decide_eq_true ht
      refine ⟨rfl, ?_, fun js hj => ⟨js, hj.tail ht, fun other => ?_⟩⟩
      · simp only [Scan.behind, List.length_append, List.length_cons]
        omega
      · have hsplit : other.behind ((Scan.behind used ⟨t :: ts, stop, none⟩).tokens ++ js) =
            ((other.behind (ts ++ js)).behind [t]).behind used := by
          simp [Scan.behind]
        have hview : SameView (t :: ts) ((other.behind (ts ++ js)).behind [t]).tokens :=
          .cons t ts _
        rw [hsplit]
        exact terminated_mark (hne rfl) ht (hother _ hview (List.cons_ne_nil t _))
    · cases hu

theorem leading_joined {rounds depth left : Nat} {s s' : Scan} {nodes : List Node}
    (hs : s.failure = none)
    (h : statements (level rounds depth).expression left s = .ok nodes s') :
    nodes.length ≤ s.tokens.length ∧ ∀ js, Joint s.tokens js → ∀ other : Scan,
      leading (level rounds depth).expression nodes.length (other.behind (s.tokens ++ js)) =
        .ok nodes other := by
  induction left generalizing s nodes with
  | zero => cases h
  | succ left ih =>
    rw [statements_terminated] at h
    obtain ⟨first, mid, hfirst, hrest⟩ := bind_ok.1 h
    cases first with
    | none =>
      obtain ⟨rfl, rfl⟩ := EStateM.Result.ok.inj hrest
      rw [terminated_none hs hfirst]
      refine ⟨Nat.zero_le _, fun js hj other => ?_⟩
      cases hj with
      | finished _ => rfl
      | mark hf _ => exact absurd finished_nil hf
    | some node =>
      obtain ⟨others, m, hothers, hall⟩ := bind_ok.1 hrest
      obtain ⟨rfl, rfl⟩ := EStateM.Result.ok.inj hall
      obtain ⟨hmid, hlt, hnode⟩ := terminated_joined hs hfirst
      obtain ⟨hle, hmore⟩ := ih hmid hothers
      refine ⟨Nat.succ_le_of_lt (Nat.lt_of_le_of_lt hle hlt), fun js hj other => ?_⟩
      obtain ⟨js', hj', hread⟩ := hnode js hj
      rw [List.length_cons, leading, bind_of_ok (hread other)]
      exact bind_of_ok (hmore js' hj' other) _

end Parser

theorem program_of_parse {source : List Char} {nodes : List Node} (h : parse source = .ok nodes) :
    ∃ s, Parser.program nestingLimit (Scan.ofChars source) = .ok nodes s := by
  have hagree := parse_agree source
  rw [h, Scan.parse] at hagree
  cases hs : Parser.program nestingLimit (Scan.ofChars source) with
  | ok nodes' s =>
    rw [hs] at hagree
    obtain rfl : nodes = nodes' := hagree
    exact ⟨s, rfl⟩
  | error e s =>
    rw [hs] at hagree
    exact hagree.elim

theorem leading_lexed {source : List Char} {ts : List Token} {c : Cursor} {nodes : List Node}
    {rounds count : Nat} (hc : Passes (.ofChars source) ts c)
    (h : leading (Parser.level rounds nestingLimit).expression count ((Scan.ofCursor c).behind ts) =
      .ok nodes (.ofCursor c)) :
    ∃ l, leading (Parser.level rounds nestingLimit).expression count (Lexer.ofChars source) =
      .ok nodes l ∧ At c l := by
  have hlock {σ : Type} [TokenSource σ] : Lockstep (.within fun _ => True) σ Lexer false _ _ _ :=
    leading_lockstep (level_lockstep (Nat.le_refl rounds) nestingLimit).expression count
  have hagree := Simulation.onDemand.run hlock (s := Scan.ofChars source)
    ⟨(Lexer.scan_ofChars source).symm, (absurd · Bool.false_ne_true)⟩
  have hbehind := (Simulation.behind (.ofChars source)).run hlock (s := Lexer.ofChars source)
    ⟨rfl, [], _, .nil _, .fresh⟩
  rw [Scan.ofChars, hc.scan, h] at hagree
  cases hl : leading (Parser.level rounds nestingLimit).expression count (Lexer.ofChars source) with
  | error e l =>
    rw [hl] at hagree
    exact hagree.elim
  | ok nodes' l =>
    rw [hl] at hagree hbehind
    obtain rfl := Node.eq_of_matchesAll (Node.matchesAll_iff.2 hagree.1)
    exact ⟨l, rfl, hbehind.2.2.at hc hagree.2.1.symm⟩

theorem leading_glue {source : List Char} {ts : List Token} {nodes : List Node}
    (h : parse source = .ok nodes) (ht : tokenize source = .ok ts) (more : List Char) {rounds : Nat}
    (hr : source.length < rounds) :
    nodes.length ≤ source.length ∧ ∃ l c gap,
      leading (Parser.level rounds nestingLimit).expression nodes.length
        (Lexer.ofChars (source ++ glue ts ++ more)) = .ok nodes l ∧
      At c l ∧ c.rest = gap ++ more ∧ Gap gap ∧
      c.position.afterAll gap = Position.start.afterAll (source ++ glue ts) := by
  obtain ⟨s, hs⟩ := program_of_parse h
  have hlength : (Scan.ofChars source).tokens.length ≤ source.length := Scan.length_ofCursor _
  rw [ofChars_of_tokenize ht] at hs hlength
  have hlist := (statements_rounds (Nat.lt_succ_self _)
    (Nat.succ_le_of_lt (Nat.lt_of_le_of_lt hlength hr)) (Scan.failure_ofTokens _ _ _)
    nestingLimit).symm.trans hs
  obtain ⟨hle, hjoined⟩ := leading_joined rfl hlist
  obtain ⟨js, c, gap, hj, hpasses, hrest, hg, hp⟩ := passes_glue ht more
  obtain ⟨l, hl, hc⟩ := leading_lexed hpasses (hjoined js hj (.ofCursor c))
  exact ⟨Nat.le_trans hle hlength, l, c, gap, hl, hc, hrest, hg, hp⟩

namespace Parser

theorem statements_at {c : Cursor} {l : Lexer} {gap cs : List Char} (h : At c l)
    (hc : c.rest = gap ++ cs) (hg : Gap gap) (statement : Parser Lexer Node) (rounds : Nat) :
    statements statement (rounds + 1) l =
      statements statement (rounds + 1) ⟨c.advance gap.length, none⟩ := by
  have hpeek : Lexer.peek l = Lexer.peek ⟨c.advance gap.length, none⟩ := by
    rw [h.peek, peek_eq, peek_eq, readToken_behind hc hg]
  rw [statements_succ]
  simp only [bind, EStateM.bind]
  rw [show (peek : Parser Lexer _) l = _ from hpeek]
  rfl

theorem program_lexer_not_exhausted (limit : Nat) (source : List Char) (l : Lexer) :
    program limit (Lexer.ofChars source) ≠ .error .exhausted l := by
  intro h
  have hagree := program_agree limit source
  rw [h] at hagree
  cases hs : program limit (Scan.ofChars source) with
  | ok nodes s =>
    rw [hs] at hagree
    exact hagree
  | error e s =>
    rw [hs] at hagree
    rcases hagree with rfl | ⟨-, hd⟩
    · exact program_not_exhausted (Scan.failure_ofChars source) limit hs
    · exact hd

theorem statements_down {source : List Char} {d : Cursor} {k : Int} {rounds left : Nat}
    (hd : d.rest = source) (hp : d.position = Position.start.down k)
    (hr : source.length + 1 ≤ rounds) (hl : source.length + 1 ≤ left) :
    match parse source with
    | .ok nodes => ∃ l, statements (Parser.level rounds nestingLimit).expression left
        (⟨d, none⟩ : Lexer) = .ok (nodes.map (Node.moved (.down k))) l
    | .error e => ∃ l, statements (Parser.level rounds nestingLimit).expression left
        (⟨d, none⟩ : Lexer) = .error (e.moved (.down k)) l := by
  have hlock : Lockstep (Relocation.down k).correspondence Lexer Lexer false _ _ _ :=
    statements_lockstep (level_lockstep hr nestingLimit).expression hl
  have hagree : Agree _ _ _ (program nestingLimit (Lexer.ofChars source)) _ :=
    (Relocation.down k).simulation.run hlock (t := ⟨d, none⟩) ⟨⟨hd.symm, hp⟩, .none⟩
  rcases hagree.outcomes (program_lexer_not_exhausted nestingLimit source) with
    ⟨nodes, l, nodes', l', hs, ht, hnodes, -⟩ | ⟨e, l, f, l', hs, ht, hef, -⟩
  · rw [parse, hs, ht, (Relocation.along_down k).trees hnodes]
    exact ⟨l', rfl⟩
  · rw [parse, hs, ht, (Relocation.along_down k).failure hef]
    exact ⟨l', rfl⟩

end Parser

theorem glue_line (ts : List Token) : ∃ cs, glue ts = cs ++ [lineFeed] := by
  unfold glue
  split
  · exact ⟨[], rfl⟩
  · exact ⟨[lineFeed, ';'], rfl⟩

theorem afterAll_glue (source : List Char) (ts : List Token) :
    Position.start.afterAll (source ++ glue ts) =
      Position.start.down ((source ++ glue ts).count lineFeed) := by
  obtain ⟨cs, hcs⟩ := glue_line ts
  rw [hcs, ← List.append_assoc, Position.afterAll_line]
  rfl

/-- Programs concatenate. Behind an accepted source and its glue, any source is read as if it stood
alone, with the lines of its leaves and of its errors counted on from there: its trees follow those
of the first source, and an error in it is the error of the whole. -/
theorem parse_concatenated {first : List Char} {nodes : List Node} (h : parse first = .ok nodes) :
    ∃ ts, tokenize first = .ok ts ∧ ∀ second : List Char,
      parse (first ++ glue ts ++ second) = match parse second with
        | .ok more =>
          .ok (nodes ++ more.map (Node.moved (.down ((first ++ glue ts).count lineFeed))))
        | .error e => .error (e.moved (.down ((first ++ glue ts).count lineFeed))) := by
  obtain ⟨ts, ht, -⟩ := reads_of_parse h
  refine ⟨ts, ht, fun second => ?_⟩
  have hglue : 0 < (glue ts).length := by
    obtain ⟨cs, hcs⟩ := glue_line ts
    simp [hcs]
  have hsize : (first ++ glue ts ++ second).length =
      first.length + (glue ts).length + second.length := by
    simp only [List.length_append]
  generalize hfull : first ++ glue ts ++ second = full at hsize
  obtain ⟨hle, l, c, gap, hl, hc, hrest, hg, hp⟩ :=
    leading_glue h ht second (by omega : first.length < full.length + 1)
  rw [hfull] at hl
  -- a statement takes a round, but also a character: rounds enough are left for the second source
  obtain ⟨left, hrounds, hleft⟩ :
      ∃ left, full.length + 1 = left + 1 + nodes.length ∧ second.length + 1 ≤ left + 1 :=
    ⟨full.length - nodes.length, by omega, by omega⟩
  let statement : Parser Lexer Node := (Parser.level (full.length + 1) nestingLimit).expression
  have hrun : program nestingLimit (Lexer.ofChars full) =
      (do let more ← statements statement (left + 1); return nodes ++ more)
        ⟨c.advance gap.length, none⟩ := by
    calc program nestingLimit (Lexer.ofChars full)
      _ = statements statement (full.length + 1) (Lexer.ofChars full) := rfl
      _ = statements statement (left + 1 + nodes.length) (Lexer.ofChars full) := by rw [← hrounds]
      _ = (do let more ← statements statement (left + 1); return nodes ++ more) l :=
        statements_leading hl (left + 1)
      _ = _ := by simp only [bind, EStateM.bind, statements_at hc hrest hg]
  have hplace : (c.advance gap.length).position = Position.start.down _ :=
    (position_advance hrest).trans (hp.trans (afterAll_glue first ts))
  have hdown := statements_down (rest_advance hrest) hplace
    (by omega : second.length + 1 ≤ full.length + 1) hleft
  cases hs : parse second with
  | ok more =>
    rw [hs] at hdown
    obtain ⟨l', hmore⟩ := hdown
    rw [parse, hrun, bind_of_ok hmore]
    rfl
  | error e =>
    rw [hs] at hdown
    obtain ⟨l', herror⟩ := hdown
    rw [parse, hrun, bind_of_error herror]

theorem parse_concatenated_comment :
    parse ['a', ' ', '#'] = .ok [.leaf ⟨.identifier "a", ⟨1, 0⟩⟩] ∧
      parse ['a', ' ', '#', '\n', ';', '\n', 'b', ' ', ')'] =
        .error (.malformed ⟨⟨3, 2⟩, .expectedPunctuation ";"⟩) := by
  have hfirst : parse ['a', ' ', '#'] = .ok [.leaf ⟨.identifier "a", ⟨1, 0⟩⟩] := rfl
  have hsecond : parse ['b', ' ', ')'] =
      .error (.malformed ⟨⟨1, 2⟩, .expectedPunctuation ";"⟩) := rfl
  obtain ⟨ts, ht, hall⟩ := parse_concatenated hfirst
  obtain rfl := Except.ok.inj ht
  have hwhole := hall ['b', ' ', ')']
  rw [hsecond] at hwhole
  exact ⟨hfirst, hwhole⟩

end RuleLang
