import RuleLang.Proofs.Language

/-!
Every program of the grammar is accepted. Wherever a derivation puts an argument list, the first
operand that can have it takes it, and the constructs around make do with fewer. So derivations
are read with a number of argument lists behind them, of which some may be left; behind the last
operand of a chain there is at most one.
-/
namespace RuleLang

open RuleLang.Vocabulary RuleLang.Parser

/-- Tokens that begin with a number of argument lists and go on with the last tokens, which do not
begin with another. -/
inductive Calls : Nat → List Token → List Token → Prop
  | none {ts : List Token} : isMark openParen ts.head? = false → Calls 0 ts ts
  | call {n : Nat} {args : List Node} {ts mid last : List Token} :
    (∀ callee, Reads (.invocation callee (.call callee args)) ts mid) → Calls n mid last →
    Calls (n + 1) ts last

theorem Calls.invocation {k : Nat} {ts last : List Token} (h : Calls k ts last) (callee : Node) :
    ∃ n rest, Reads (.invocation callee n) ts rest ∧ Calls (k - 1) rest last := by
  cases h with
  | none hm => exact ⟨callee, ts, .uncalled hm, .none hm⟩
  | @call k args ts mid last hc hr => exact ⟨.call callee args, mid, hc callee, hr⟩

theorem Calls.eq_of_zero {ts last : List Token} (h : Calls 0 ts last) : ts = last := by
  cases h
  rfl

def stops : List String := [closeParen, closeBrace]

def separators : List String := [comma, semicolon]

theorem stop_ne_separator {stop separator : String} (hs : stop ∈ stops)
    (hp : separator ∈ separators) : stop ≠ separator := by
  have hall : ∀ x ∈ stops, ∀ y ∈ separators, x ≠ y := by decide
  exact hall stop hs separator hp

def Closes (ts : List Token) : Prop :=
  ∀ t ∈ ts.head?, ∃ p ∈ stops ++ separators, t.lexeme = .punctuation p

theorem closes_nil : Closes [] := nofun

theorem closes_stop {t : Token} {p : String} (h : t.lexeme = .punctuation p) (hp : p ∈ stops)
    (ts : List Token) : Closes (t :: ts) := by
  intro u hu
  obtain rfl := Option.some.inj hu
  exact ⟨p, List.mem_append_left _ hp, h⟩

theorem closes_separator {t : Token} {p : String} (h : t.lexeme = .punctuation p)
    (hp : p ∈ separators) (ts : List Token) : Closes (t :: ts) := by
  intro u hu
  obtain rfl := Option.some.inj hu
  exact ⟨p, List.mem_append_right _ hp, h⟩

theorem Closes.not_open {ts : List Token} (h : Closes ts) : isMark openParen ts.head? = false := by
  cases ts with
  | nil => rfl
  | cons t ts =>
    obtain ⟨p, hp, ht⟩ := h t rfl
    refine not_isMark ?_
    rw [ht]
    intro he
    rw [Lexeme.punctuation.inj he] at hp
    exact absurd hp (by decide)

theorem Closes.no_operator {ts : List Token} (h : Closes ts) : operatorText? ts.head? = none := by
  cases ts with
  | nil => rfl
  | cons t ts =>
    obtain ⟨p, _, ht⟩ := h t rfl
    exact operatorText?_punctuation ht

def Taken (phrase : Node → Phrase) (ts : List Token) : Prop :=
  ∀ k rest last, Calls k rest last →
    ∃ n j rest', j ≤ k ∧ Calls j rest' last ∧ Reads (phrase n) (ts ++ rest) rest'

theorem Calls.no_operator {k : Nat} {ts last : List Token} (h : Calls k ts last)
    (hl : Closes last) : operatorText? ts.head? = Option.none := by
  cases h with
  | none => exact hl.no_operator
  | call hc _ =>
    cases hc .blank with
    | call _ ho _ _ => exact operatorText?_punctuation ho

/-- Pairs of an operator and an operand, with at most one argument list behind the last. -/
inductive Chained : Nat → List Token → List Token → Prop
  | last {k : Nat} {ts last : List Token} : k ≤ 1 → Calls k ts last → Closes last →
    Chained 0 ts last
  | pair {m : Nat} {t : Token} {op : String} {power : Int} {d : Node} {ts mid last : List Token} :
    t.lexeme = .operator op → bindingPower? op = some power → Reads (.operand d) ts mid →
    Chained m mid last → Chained (m + 1) (t :: ts) last

theorem Chained.bindings {m : Nat} {ts last : List Token} (h : Chained m ts last) (left : Node)
    (least : Int) :
    ∃ n rest m', m' ≤ m ∧ Chained m' rest last ∧ Stops least rest ∧
      Reads (.bindings left least n) ts rest := by
  induction m using Nat.strongRecOn generalizing ts left least with
  | ind m ih =>
    cases h with
    | @last k ts last hk hc hl =>
      have hs : Stops least ts := stops_of_none (hc.no_operator hl)
      exact ⟨left, ts, 0, Nat.le_refl 0, .last hk hc hl, hs, .bound hs⟩
    | @pair m t op power d ts mid last ht hp hd hr =>
      by_cases hle : power ≤ least
      · have hs : Stops least (t :: ts) := by
          intro op' hop
          obtain rfl : op = op' := Option.some.inj ((operatorText?_operator ht).symm.trans hop)
          exact ⟨power, hp, hle⟩
        exact ⟨left, t :: ts, m + 1, Nat.le_refl _, .pair ht hp hd hr, hs, .bound hs⟩
      · obtain ⟨right, mid', m₁, hm₁, hr₁, _, hright⟩ := ih m (Nat.lt_succ_self m) hr d power
        obtain ⟨n, rest, m₂, hm₂, hr₂, hs, hn⟩ :=
          ih m₁ (by omega) hr₁ (Node.joined op left right) least
        exact ⟨n, rest, m₂, by omega, hr₂, hs, .pair ht hp (by omega) hd hright hn⟩

theorem Chained.chain {m : Nat} {ts last : List Token} (h : Chained m ts last) (left : Node) :
    ∃ n rest k, k ≤ 1 ∧ Calls k rest last ∧ Reads (.bindings left 0 n) ts rest := by
  obtain ⟨n, rest, m', _, hr, hs, hn⟩ := h.bindings left 0
  cases hr with
  | last hk hc hl => exact ⟨n, rest, _, hk, hc, hn⟩
  | @pair m t op power d ts mid last ht hp hd hr =>
    obtain ⟨power', hp', hle⟩ := hs op (operatorText?_operator ht)
    have hpos := bindingPower?_pos hp'
    omega

/-- The readings that a derivation of a symbol guarantees. -/
def Symbol.Read : Symbol → List Token → Prop
  | .program, ts => ∃ ns, Reads (.program ns) ts []
  | .expression, ts => ∀ rest, Closes rest → ∃ n, Reads (.expression n) (ts ++ rest) rest
  | .pairs, ts => ∀ us, Taken .operand us → ∀ k rest last, k ≤ 1 → Calls k rest last →
    Closes last → ∃ d m mid, Reads (.operand d) (us ++ (ts ++ rest)) mid ∧ Chained m mid last
  | .operand, ts => Taken .operand ts
  | .optional, ts => ∀ k rest last, Calls k rest last → ∃ j, j ≤ k + 1 ∧ Calls j (ts ++ rest) last
  | .block, ts => ∃ o us, ts = o :: us ∧ o.lexeme = .punctuation openBrace ∧
    ∀ rest, ∃ c ns, c.lexeme = .punctuation closeBrace ∧
      Listed (fun n ts rest => Reads (.expression n) ts rest) closeBrace semicolon true ns
        (us ++ rest) (c :: rest)
  | .atom, ts => Taken .atom ts
  | .list separator, ts => separator ∈ separators →
    (∀ stop c rest, stop ∈ stops → c.lexeme = .punctuation stop →
      ∃ ns, Listed (fun n ts rest => Reads (.expression n) ts rest) stop separator true ns
        (ts ++ c :: rest) (c :: rest)) ∧
    (separator = semicolon → ∃ ns, Reads (.program ns) ts [])

theorem taken_of_reads {phrase : Node → Phrase} {ts : List Token}
    (h : ∀ rest, ∃ n, Reads (phrase n) (ts ++ rest) rest) : Taken phrase ts := by
  intro k rest last hcalls
  obtain ⟨n, hn⟩ := h rest
  exact ⟨n, k, rest, Nat.le_refl k, hcalls, hn⟩

theorem named_of_optionalName {ts : List Token} (h : OptionalName ts) (rest : List Token) :
    ∃ name, Named name (ts ++ rest) rest := by
  cases h with
  | none => exact ⟨none, .anonymous rest⟩
  | @name t name ht => exact ⟨t.lexeme.text?, .name (by rw [ht]; rfl)⟩

theorem Opens.not_stop {ts : List Token} {stop : String} (h : Opens ts)
    (hs : stop ∈ stops) : isMark stop ts.head? = false := by
  obtain ⟨t, us, rfl, ht⟩ := h
  refine not_isMark fun he => ht ?_
  have hall : ∀ x ∈ stops, Opening.of (.punctuation x) = .none := by decide
  rw [he]
  exact hall stop hs

namespace Symbol

theorem Read.lastItem {separator : String} {ts : List Token} (hts : Opens ts)
    (h : Read .expression ts) : Read (.list separator) ts := by
  intro _
  constructor
  · intro stop c rest hstop hc
    obtain ⟨n, hn⟩ := h (c :: rest) (closes_stop hc hstop rest)
    exact ⟨[n], .first ((hts.append _).not_stop hstop) hn (.stop (ends_cons.2 hc))⟩
  · intro _
    obtain ⟨n, hn⟩ := h [] nofun
    rw [List.append_nil] at hn
    exact ⟨[n], .last hn⟩

theorem Read.moreItems {separator : String} {s : Token} {ts us : List Token} (hts : Opens ts)
    (h : Read .expression ts) (hs : s.lexeme = .punctuation separator)
    (hl : Read (.list separator) us) : Read (.list separator) (ts ++ s :: us) := by
  intro hsep
  obtain ⟨hlist, hprogram⟩ := hl hsep
  constructor
  · intro stop c rest hstop hc
    obtain ⟨n, hn⟩ := h (s :: (us ++ c :: rest)) (closes_separator hs hsep _)
    obtain ⟨ns, hns⟩ := hlist stop c rest hstop hc
    rw [List.append_assoc, List.cons_append]
    refine ⟨n :: ns, .first ((hts.append _).not_stop hstop) hn ?_⟩
    exact hns.after_separator (by simp) hs (stop_ne_separator hstop hsep)
  · intro hsemi
    obtain ⟨n, hn⟩ := h (s :: us) (closes_separator hs hsep us)
    obtain ⟨ns, hns⟩ := hprogram hsemi
    exact ⟨n :: ns, .statement hn (hsemi ▸ hs) hns⟩

theorem Read.expression {ts us vs : List Token} (hd : Read .operand ts) (hp : Read .pairs us)
    (ho : Read .optional vs) : Read .expression (ts ++ (us ++ vs)) := by
  intro rest hrest
  obtain ⟨j, hj, hcalls⟩ := ho 0 rest rest (.none hrest.not_open)
  obtain ⟨d, m, mid, hd, hchain⟩ := hp ts hd j (vs ++ rest) rest (by omega) hcalls hrest
  obtain ⟨c, mid', k, hk, hleft, hc⟩ := hchain.chain d
  obtain ⟨n, rest', hn, hlast⟩ := hleft.invocation c
  rw [show k - 1 = 0 by omega] at hlast
  obtain rfl := hlast.eq_of_zero
  rw [List.append_assoc, List.append_assoc]
  exact ⟨n, .expression hd hc hn⟩

theorem Read.noPairs : Read .pairs [] := by
  intro us hus k rest last hk hcalls hlast
  obtain ⟨d, j, mid, hj, hleft, hd⟩ := hus k rest last hcalls
  exact ⟨d, 0, mid, hd, .last (by omega) hleft hlast⟩

theorem Read.morePairs {t : Token} {op : String} {ts us : List Token}
    (ht : t.lexeme = .operator op) (hp : (bindingPower? op).isSome) (hd : Read .operand ts)
    (hmore : Read .pairs us) : Read .pairs (t :: (ts ++ us)) := by
  intro vs hvs k rest last hk hcalls hlast
  obtain ⟨d, m, mid, hd, hchain⟩ := hmore ts hd k rest last hk hcalls hlast
  obtain ⟨power, hpower⟩ := Option.isSome_iff_exists.1 hp
  -- the operand before an operator has no argument list behind it to take
  have hnone : Calls 0 (t :: (ts ++ us) ++ rest) (t :: (ts ++ us) ++ rest) :=
    .none (not_isMark (by simp [ht]))
  obtain ⟨d', j, mid', hj, hleft, hd'⟩ := hvs 0 _ _ hnone
  obtain rfl : j = 0 := by omega
  obtain rfl := hleft.eq_of_zero
  refine ⟨d', m + 1, _, hd', ?_⟩
  rw [List.cons_append, List.append_assoc]
  exact .pair ht hpower hd hchain

theorem Read.operand {ts us : List Token} (ha : Read .atom ts) (ho : Read .optional us) :
    Read .operand (ts ++ us) := by
  intro k rest last hcalls
  obtain ⟨j, hj, hmore⟩ := ho k rest last hcalls
  obtain ⟨a, i, mid, hi, hleft, ha⟩ := ha j (us ++ rest) last hmore
  obtain ⟨n, rest', hn, hlast⟩ := hleft.invocation a
  refine ⟨n, i - 1, rest', by omega, hlast, ?_⟩
  rw [List.append_assoc]
  exact .operand ha hn

theorem Read.arguments {o c : Token} {ts : List Token} (ho : o.lexeme = .punctuation openParen)
    (hl : Read (.list comma) ts) (hc : c.lexeme = .punctuation closeParen) :
    Read .optional (o :: (ts ++ [c])) := by
  intro k rest last hcalls
  obtain ⟨args, hargs⟩ := (hl (by decide)).1 closeParen c rest (by decide) hc
  refine ⟨k + 1, Nat.le_refl _, ?_⟩
  rw [List.cons_append, List.append_assoc]
  exact .call (fun callee => .call (fun _ _ _ h => h) ho hc hargs) hcalls

theorem Read.block {o c : Token} {ts : List Token} (ho : o.lexeme = .punctuation openBrace)
    (hl : Read (.list semicolon) ts) (hc : c.lexeme = .punctuation closeBrace) :
    Read .block (o :: (ts ++ [c])) := by
  refine ⟨o, ts ++ [c], rfl, ho, fun rest => ?_⟩
  obtain ⟨ns, hns⟩ := (hl (by decide)).1 closeBrace c rest (by decide) hc
  refine ⟨c, ns, hc, ?_⟩
  rwa [List.append_assoc]

theorem Read.group {o c : Token} {ts : List Token} (ho : o.lexeme = .punctuation openParen)
    (h : Read .expression ts) (hc : c.lexeme = .punctuation closeParen) :
    Read .atom (o :: (ts ++ [c])) := by
  apply taken_of_reads
  intro rest
  obtain ⟨n, hn⟩ := h (c :: rest) (closes_stop hc (by decide) rest)
  refine ⟨n, ?_⟩
  rw [List.cons_append, List.append_assoc]
  exact .group ho hc hn

theorem Read.braces {ts : List Token} (h : Read .block ts) : Read .atom ts := by
  obtain ⟨o, us, rfl, ho, hread⟩ := h
  apply taken_of_reads
  intro rest
  obtain ⟨c, ns, hc, hns⟩ := hread rest
  exact ⟨Node.sequence ns, .block (fun _ _ _ h => h) ho hc hns⟩

theorem Read.rule {r o c : Token} {title params body : List Token} {names : List String}
    (hr : r.lexeme = .keyword ruleWord) (htitle : OptionalName title)
    (ho : o.lexeme = .punctuation openParen) (hp : Names params names) (hn : names.Nodup)
    (hc : c.lexeme = .punctuation closeParen) (h : Read .block body) :
    Read .atom (r :: (title ++ o :: (params ++ c :: body))) := by
  obtain ⟨b, us, rfl, hb, hread⟩ := h
  apply taken_of_reads
  intro rest
  obtain ⟨d, ns, hd, hns⟩ := hread rest
  obtain ⟨ps, hlist, hnames⟩ := hp.listed hc (b :: (us ++ rest))
  obtain ⟨name, hname⟩ := named_of_optionalName htitle (o :: (params ++ c :: b :: (us ++ rest)))
  have hf := (nodup_names hnames).2 hn
  have hsplit : r :: (title ++ o :: (params ++ c :: b :: us)) ++ rest =
      r :: (title ++ o :: (params ++ c :: b :: (us ++ rest))) := by simp
  rw [hsplit]
  exact ⟨_, .rule (fun _ _ _ h => h) hr hname ho hc hlist hf hb hd hns⟩

theorem Read.sign {s : Token} {ts : List Token} (hs : isOperatorAmong signOperators s.lexeme)
    (ht : ts.head?.any (takesSign ·.lexeme)) (h : Read .operand ts) : Read .atom (s :: ts) := by
  intro k rest last hcalls
  obtain ⟨n, j, rest', hj, hleft, hn⟩ := h k rest last hcalls
  refine ⟨applySign s n, j, rest', hj, hleft, .sign hs ?_ hn⟩
  cases ts with
  | nil => cases ht
  | cons t ts => exact ht

end Symbol

theorem Derives.read {s : Symbol} {ts : List Token} (h : Derives s ts) : s.Read ts := by
  induction h with
  | noItems separator =>
    exact fun _ => ⟨fun stop c rest _ hc => ⟨[], .stop (ends_cons.2 hc)⟩, fun _ => ⟨[], .finish⟩⟩
  | lastItem hd ih => exact .lastItem (hd.opens (by simp)) ih
  | moreItems hd hs _ ih ihl => exact .moreItems (hd.opens (by simp)) ih hs ihl
  | program _ ih => exact (ih (by decide)).2 rfl
  | expression _ _ _ ihd ihp iho => exact .expression ihd ihp iho
  | noPairs => exact .noPairs
  | morePairs ht hp _ _ ihd ihp => exact .morePairs ht hp ihd ihp
  | operand _ _ iha iho => exact .operand iha iho
  | omitted => exact fun k rest last hcalls => ⟨k, Nat.le_succ k, hcalls⟩
  | arguments ho _ hc ih => exact .arguments ho ih hc
  | block ho _ hc ih => exact .block ho ih hc
  | leaf ht => exact taken_of_reads fun rest => ⟨_, .leaf ht⟩
  | truth value ht => exact taken_of_reads fun rest => ⟨_, .truth ht⟩
  | group ho _ hc ih => exact .group ho ih hc
  | braces _ ih => exact .braces ih
  | rule hr hname ho hp hn hc _ ih => exact .rule hr hname ho hp hn hc ih
  | sign hs ht _ ih => exact .sign hs ht ih

theorem Parser.program_derived {limit : Nat} {ts : List Token} (h : Derives .program ts)
    (stop : Position) :
    (∃ nodes s, program limit (Scan.ofTokens ts stop) = .ok nodes s) ∨
      ∃ e s, program limit (Scan.ofTokens ts stop) = .error e s ∧ e.IsTooDeep ∧
        limit ≤ ts.length := by
  obtain ⟨ns, hns⟩ := h.read
  have hret : (Phrase.program ns).Returned (ts.length + 1) limit ts [] :=
    hns.returned (Nat.lt_succ_self _)
  rcases hret (ts.length + 1) (Nat.lt_succ_self _) stop with hok | ⟨e, s, he, htd, hle⟩
  · exact .inl ⟨ns, _, hok⟩
  · exact .inr ⟨e, s, he, htd, hle⟩

theorem Parser.not_derived {limit : Nat} {ts : List Token} {stop : Position} {f : Failure}
    {left : Scan} (h : program limit (Scan.ofTokens ts stop) = .error f left)
    (hd : ¬ f.IsTooDeep) : ¬ Derives .program ts := by
  intro hts
  rcases program_derived hts stop with ⟨nodes, s, hok⟩ | ⟨e, s, he, htd, _⟩
  · rw [h] at hok
    cases hok
  · rw [h] at he
    obtain ⟨rfl, _⟩ := EStateM.Result.error.inj he
    exact hd htd

/-- The language of the readers is that of the grammar. A list of tokens that is read is a program
of the grammar, and every program of the grammar is read, unless constructs nest too deeply,
which takes as many tokens as the limit. -/
theorem program_language (limit : Nat) (ts : List Token) (stop : Position) :
    ((∃ nodes s, Parser.program limit (Scan.ofTokens ts stop) = .ok nodes s) →
      Derives .program ts) ∧
    (Derives .program ts →
      (∃ nodes s, Parser.program limit (Scan.ofTokens ts stop) = .ok nodes s) ∨
        ∃ e s, Parser.program limit (Scan.ofTokens ts stop) = .error e s ∧ e.IsTooDeep ∧
          limit ≤ ts.length) := by
  refine ⟨fun h => ?_, fun h => program_derived h stop⟩
  obtain ⟨nodes, s, hs⟩ := h
  obtain ⟨rest, _, rfl, hread⟩ := statements_yields (level_yields _ limit) _ ts stop nodes s hs
  obtain ⟨used, rfl, hused⟩ := hread.derived
  rwa [List.append_nil]

end RuleLang
