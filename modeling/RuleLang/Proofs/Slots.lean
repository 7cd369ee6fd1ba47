import RuleLang.Proofs.Levels
import RuleLang.Proofs.Replacement

/-!
Where operands begin. An operand that no sign stands before begins an expression, or it stands
right behind an infix operator. Around it a program is read alike, whatever other tokens are read
in its place as the same expression, or as the same chain behind the operator, and with more
levels if these need more.
-/
namespace RuleLang

open RuleLang.Vocabulary RuleLang.Parser

def InHeader (before : List Token) : Prop :=
  ∃ front r title o params, before = front ++ r :: (title ++ o :: params) ∧
    r.lexeme = .keyword ruleWord ∧ OptionalName title ∧ o.lexeme = .punctuation openParen ∧
    ∀ t ∈ params, t.lexeme.kind = .identifier ∨ t.lexeme = .punctuation comma

/-- Behind these tokens an operand may begin that no sign stands before. -/
structure OperandPlace (before : List Token) : Prop where
  awaits : AwaitsOperand before
  unsigned : ¬ EndsWithSign before
  outside : ¬ InHeader before

def AfterOperator (before : List Token) : Prop :=
  ∃ t ∈ before.getLast?, ∃ op, t.lexeme = .operator op

theorem AfterOperator.behind {before : List Token} (h : AfterOperator before)
    (used : List Token) : AfterOperator (used ++ before) := by
  obtain ⟨t, ht, hop⟩ := h
  refine ⟨t, ?_, hop⟩
  rw [List.getLast?_append, ht]
  rfl

theorem AwaitsOperand.of_append {before used : List Token} (h : AwaitsOperand (before ++ used))
    (hne : used ≠ []) : AwaitsOperand used := by
  intro t ht
  exact h t (by rwa [List.getLast?_append_of_ne_nil _ hne])

theorem not_awaitsOperand_snoc {before : List Token} {t : Token} (h : t.awaitsOperand = false) :
    ¬ AwaitsOperand (before ++ [t]) := by
  intro ha
  rw [ha t (by simp)] at h
  cases h

theorem not_awaitsOperand {before : List Token} (hne : before ≠ [])
    (h : ∀ t ∈ before, t.awaitsOperand = false) : ¬ AwaitsOperand before := by
  intro ha
  have ht := ha _ (List.getLast?_eq_some_getLast hne)
  rw [h _ (List.getLast_mem hne)] at ht
  cases ht

theorem Names.tokens {ts : List Token} {names : List String} (h : Names ts names) :
    ∀ t ∈ ts, t.lexeme.kind = .identifier ∨ t.lexeme = .punctuation comma := by
  induction h with
  | none => nofun
  | last ht => exact List.forall_mem_singleton.2 (.inl (by rw [ht]; rfl))
  | more ht hc _ ih =>
    exact List.forall_mem_cons.2 ⟨.inl (by rw [ht]; rfl), List.forall_mem_cons.2 ⟨.inr hc, ih⟩⟩

theorem OperandPlace.not_header {before pre title names : List Token} {r o c : Token}
    (h : OperandPlace (before ++ pre)) (hr : r.lexeme = .keyword ruleWord)
    (htitle : OptionalName title) (ho : o.lexeme = .punctuation openParen)
    (hnames : ∀ t ∈ names, t.lexeme.kind = .identifier ∨ t.lexeme = .punctuation comma)
    (hc : c.lexeme = .punctuation closeParen) (hne : pre ≠ []) :
    ¬ pre <+: r :: (title ++ o :: names) ++ [c] := by
  have hawaits := h.awaits.of_append hne
  have hbegin : ∀ t ∈ r :: title, t.awaitsOperand = false := by
    refine List.forall_mem_cons.2 ⟨Token.awaitsOperand_keyword hr, ?_⟩
    cases htitle with
    | none => nofun
    | name ht => exact List.forall_mem_singleton.2 (Token.awaitsOperand_leaf (by rw [ht]; rfl))
  intro hprefix
  rcases List.prefix_concat_iff.1 hprefix with rfl | hprefix
  · exact not_awaitsOperand_snoc (Token.awaitsOperand_punctuation hc) hawaits
  rw [← List.cons_append] at hprefix
  rcases List.prefix_or_prefix_of_prefix hprefix (List.prefix_append _ _) with hp | hp
  · exact not_awaitsOperand hne (fun t ht => hbegin t (hp.subset ht)) hawaits
  obtain ⟨more, rfl⟩ := hp
  rcases List.prefix_cons_iff.1 ((List.prefix_append_right_inj _).1 hprefix) with rfl | hmore
  · rw [List.append_nil] at hne hawaits
    exact not_awaitsOperand hne hbegin hawaits
  · obtain ⟨params, rfl, hparams⟩ := hmore
    exact h.outside ⟨before, r, title, o, params, rfl, hr, htitle, ho,
      fun t ht => hnames t (hparams.subset ht)⟩

theorem Accounts.reaches {unary after : Bool} {ps : List Piece} {ts rest : List Token}
    (h : Accounts unary ps ts after rest) : ∃ used, ts = used ++ rest ∧
      after = used.getLast?.elim unary Token.awaitsOperand := by
  induction h with
  | refl => exact ⟨[], rfl, rfl⟩
  | @token unary after t ps qs ts rest _ _ ih =>
    obtain ⟨used, rfl, hafter⟩ := ih
    refine ⟨t :: used, rfl, ?_⟩
    rw [hafter, List.getLast?_cons]
    cases used.getLast? <;> rfl

/-- The tokens up to the rest are read so, with more levels and whatever else stands behind them,
as far as they can see. An operand does not have to follow them. -/
def Whole (X : Nat → List Token → List Token → Prop) (ts rest : List Token) : Prop :=
  ∃ used, ts = used ++ rest ∧ ¬ AwaitsOperand used ∧
    ∀ more rest', rest' ≠ [] → SameView rest rest' → X more (used ++ rest') rest'

theorem Whole.suffix {X : Nat → List Token → List Token → Prop} {ts rest : List Token}
    (h : Whole X ts rest) : rest <:+ ts := by
  obtain ⟨used, rfl, -, -⟩ := h
  exact List.suffix_append used rest

namespace Parser

theorem Persists.whole {p : Parser Scan Node} {takes : Bool}
    {reading : Node → List Token → List Token → Prop} {X : Nat → List Token → List Token → Prop}
    {n : Node} {ps : List Piece} {ts rest : List Token} (hp : Persists takes p)
    (hk : ∀ ts, Yields p ts fun n rest => reading n ts rest) (h : Answers p ts n rest)
    (hx : ∀ more {ts rest}, reading n ts rest → X more ts rest)
    (ha : Accounts true ps ts false rest) : Whole X ts rest := by
  obtain ⟨used, hts, hread⟩ := hp.reread hk h
  obtain ⟨taken, htaken, hlast⟩ := ha.reaches
  obtain rfl : used = taken := List.append_cancel_right (hts.symm.trans htaken)
  refine ⟨used, hts, fun hawaits => ?_, fun more rest' hne hv => hx more (hread rest' hne hv)⟩
  cases ht : used.getLast? with
  | none =>
    rw [ht] at hlast
    cases hlast
  | some t =>
    rw [ht, Option.elim_some, hawaits t ht] at hlast
    cases hlast

section Whole

variable {d n : Node} {least : Int} {depth : Nat} {ts mid rest : List Token}

theorem operand_whole (h : (readings depth).operand n ts rest) :
    Whole (fun more ts rest => (readings (more + depth)).operand n ts rest) ts rest :=
  (level_persists (ts.length + 1) depth).operand.whole (level_keeps _ depth).operand
    ((level_answers _ depth).operand h (Nat.lt_succ_self _))
    (fun more _ _ => (readings_le_add more depth).operand)
    ((readings_le_all depth).operand h).accounted

theorem expression_whole (h : (readings depth).expression n ts rest) :
    Whole (fun more ts rest => (readings (more + depth)).expression n ts rest) ts rest :=
  (level_persists (ts.length + 1) depth).expression.whole (level_keeps _ depth).expression
    ((level_answers _ depth).expression h (Nat.lt_succ_self _))
    (fun more _ _ => (readings_le_add more depth).expression)
    ((readings_le_all depth).expression h).accounted

theorem atom_whole (h : (readings depth).Atom n ts rest) :
    Whole (fun more ts rest => (readings (more + depth)).Atom n ts rest) ts rest :=
  (atom_persists (level_persists (ts.length + 1) depth) (level_matches _ depth) _).whole
    (atom_keeps (level_keeps _ depth))
    (atom_answers (level_answers _ depth) (readings_le_all depth) h (Nat.lt_succ_self _))
    (fun more _ _ h => h.mono (readings_le_add more depth))
    (h.mono (readings_le_all depth)).reads.accounted

theorem chain_whole (h : Chain (readings depth).operand least n ts rest) :
    Whole (fun more ts rest => Chain (readings (more + depth)).operand least n ts rest)
      ts rest := by
  obtain ⟨rounds, hr⟩ : ∃ rounds, ts.length < rounds := ⟨_, Nat.lt_succ_self _⟩
  have hp := (level_persists rounds depth).operand
  have hle := readings_le_all depth
  obtain ⟨d, mid, hd, hn⟩ := h.mono hle.operand
  have hfirst : Accounts true d.inOrder ts false mid := Reads.accounted hd
  obtain ⟨pieces, hpieces, hmore⟩ := hn.reads.accounted
  have hmono (more : Nat) {ts rest : List Token}
      (h : Chain (readings depth).operand least n ts rest) :
      Chain (readings (more + depth)).operand least n ts rest :=
    h.mono (readings_le_add more depth).operand
  exact (hp.bind fun d => bindings_persists hp rounds d least).whole
    (chain_keeps (level_keeps rounds depth).operand least)
    (chain_answers (level_answers _ depth).operand hle.operand h hr) hmono (hfirst.trans hmore)

end Whole

end Parser

/-- The place of an operand among the tokens behind others, and that these are read as far as to
some rest before which the operand begins. -/
structure Hole (before pre us rest : List Token) : Prop where
  place : OperandPlace (before ++ pre)
  opens : Opens us
  within : rest.length < us.length

theorem Hole.after {before pre us rest : List Token} (used : List Token)
    (hole : Hole before (used ++ pre) us rest) : Hole (before ++ used) pre us rest := by
  refine ⟨?_, hole.opens, hole.within⟩
  rw [List.append_assoc]
  exact hole.place

/-- The second list begins an expression, or a chain behind an operator. With other tokens for it
that are read as the same, up to the same rest, all are read as stated. -/
inductive Slot (pre us : List Token) (R : Nat → List Token → Prop) : Prop
  | expression {depth : Nat} {n : Node} {mid : List Token} :
    (readings depth).expression n us mid → Closes mid →
    (∀ more vs, (readings (more + depth)).expression n vs mid → R more (pre ++ vs)) → Slot pre us R
  | chain {depth : Nat} {power : Int} {n : Node} {mid : List Token} : AfterOperator pre →
    Chain (readings depth).operand power n us mid →
    (∀ more vs, Chain (readings (more + depth)).operand power n vs mid → R more (pre ++ vs)) →
    Slot pre us R

namespace Slot

variable {pre us : List Token} {R R' : Nat → List Token → Prop}

theorem behind (used : List Token) (h : Slot pre us R)
    (hr : ∀ more vs, R more (pre ++ vs) → R' more (used ++ (pre ++ vs))) :
    Slot (used ++ pre) us R' := by
  cases h with
  | expression hn hc hall =>
    refine .expression hn hc fun more vs hv => ?_
    rw [List.append_assoc]
    exact hr more vs (hall more vs hv)
  | chain ha hn hall =>
    refine .chain (ha.behind used) hn fun more vs hv => ?_
    rw [List.append_assoc]
    exact hr more vs (hall more vs hv)

theorem mono (h : Slot pre us R) (hr : ∀ more vs, R more (pre ++ vs) → R' more (pre ++ vs)) :
    Slot pre us R' := h.behind [] hr

end Slot

theorem Whole.split {X : Nat → List Token → List Token → Prop} {before pre us mid rest : List Token}
    (h : Whole X (pre ++ us) mid) (hole : Hole before pre us rest) :
    Hole before pre us mid ∨ ∃ used p later, pre = used ++ p :: later ∧
      mid = p :: later ++ us ∧ Hole (before ++ used) (p :: later) us rest ∧
      ∀ more vs, X more (used ++ (p :: later ++ vs)) (p :: later ++ vs) := by
  obtain ⟨used, hts, hlast, hx⟩ := h
  have hend : pre ≠ used := by
    rintro rfl
    have hne : pre ≠ [] := by
      rintro rfl
      exact hlast nofun
    exact hlast (hole.place.awaits.of_append hne)
  rcases List.append_eq_append_iff.1 hts with ⟨as, rfl, rfl⟩ | ⟨bs, rfl, rfl⟩
  · cases as with
    | nil => exact absurd (List.append_nil pre).symm hend
    | cons a as =>
      refine .inl ⟨hole.place, hole.opens, ?_⟩
      rw [List.length_append, List.length_cons]
      omega
  · cases bs with
    | nil => exact absurd (List.append_nil used) hend
    | cons p later =>
      refine .inr ⟨used, p, later, rfl, rfl, hole.after used, fun more vs => ?_⟩
      exact hx more _ (List.cons_ne_nil _ _) (.cons p _ _)

theorem Hole.not_mark {before pre us rest : List Token} {t : Token} {p : String}
    (hole : Hole before pre us rest) (ht : us.head? = some t)
    (hp : p ∈ stops ++ separators) : t.lexeme ≠ .punctuation p := by
  obtain ⟨u, vs, rfl, hopens⟩ := hole.opens
  obtain rfl := Option.some.inj ht
  have hall : ∀ p ∈ stops ++ separators, Opening.of (.punctuation p) = .none := by decide
  intro he
  exact hopens (by rw [he, hall p hp])

theorem Hole.before_mark {before pre us rest : List Token} {c : Token} {p : String}
    (hole : Hole before pre us rest) (hc : c.lexeme = .punctuation p)
    (hp : p ∈ stops ++ separators) (hs : c :: rest <:+ pre ++ us) :
    Hole before pre us (c :: rest) := by
  refine ⟨hole.place, hole.opens, Nat.lt_of_le_of_ne hole.within fun hl => ?_⟩
  have heq := (List.suffix_of_suffix_length_le hs (List.suffix_append pre us)
    (Nat.le_of_eq hl)).eq_of_length hl
  exact hole.not_mark (heq ▸ rfl) hp hc

structure Slotted (depth : Nat) : Prop where
  operand {n : Node} {before pre us rest : List Token} :
    (readings depth).operand n (pre ++ us) rest → Hole before pre us rest →
    AwaitsOperand before → pre ≠ [] →
    Slot pre us fun more ts => (readings (more + depth)).operand n ts rest
  expression {n : Node} {before pre us rest : List Token} :
    (readings depth).expression n (pre ++ us) rest → Hole before pre us rest →
    AwaitsOperand before → Closes rest →
    Slot pre us fun more ts => (readings (more + depth)).expression n ts rest

section Productions

variable {depth : Nat} {before pre us rest : List Token}

theorem Parser.Listed.closes {item : Node → List Token → List Token → Prop}
    {stop separator : String} {xs : List Node} {ts : List Token}
    (h : Listed item stop separator false xs ts rest) (hsep : separator ∈ separators)
    (hrest : Closes rest) : Closes ts := by
  cases h with
  | stop => exact hrest
  | trailing _ hs _ => exact closes_separator hs hsep _
  | next _ hs => exact closes_separator hs hsep _

theorem item_slot {stop separator : String} {x : Node} {xs : List Node} {mid : List Token}
    (hslots : Slotted depth) (hstop : stop ∈ stops) (hsep : separator ∈ separators)
    (hx : (readings depth).expression x (pre ++ us) mid)
    (hl : Listed (readings depth).expression stop separator false xs mid rest)
    (hclose : Closes rest) (hole : Hole before pre us rest) (hb : AwaitsOperand before)
    (behind : ∀ before pre, pre ++ us = mid → Hole before pre us rest → pre ≠ [] →
      Slot pre us fun more ts =>
        Listed (readings (more + depth)).expression stop separator false xs ts rest) :
    Slot pre us fun more ts => ∃ mid, isMark stop ts.head? = false ∧
      (readings (more + depth)).expression x ts mid ∧
      Listed (readings (more + depth)).expression stop separator false xs mid rest := by
  have not_stop {more : Nat} {ts mid : List Token}
      (h : (readings (more + depth)).expression x ts mid) : isMark stop ts.head? = false :=
    Reads.not_stop ((readings_le_all _).expression h) hstop
  rcases (expression_whole hx).split hole with hole | ⟨used, p, later, rfl, rfl, hole, hread⟩
  · refine (hslots.expression hx hole hb (hl.closes hsep hclose)).mono fun more vs hv => ?_
    exact ⟨mid, not_stop hv, hv, hl.mono fun _ _ _ => (readings_le_add more depth).expression⟩
  · refine (behind _ _ rfl hole (List.cons_ne_nil _ _)).behind used fun more vs hv => ?_
    exact ⟨_, not_stop (hread more vs), hread more vs, hv⟩

theorem Parser.Listed.slot {stop separator : String} {first : Bool} {xs : List Node}
    (hslots : Slotted depth)
    (h : Listed (readings depth).expression stop separator first xs (pre ++ us) rest)
    (hstop : stop ∈ stops) (hsep : separator ∈ separators) (hclose : Closes rest)
    (hole : Hole before pre us rest) (hb : first = true → AwaitsOperand before)
    (hpre : first = false → pre ≠ []) :
    Slot pre us fun more ts =>
      Listed (readings (more + depth)).expression stop separator first xs ts rest := by
  generalize hts : pre ++ us = ts at h
  induction h generalizing before pre with
  | stop =>
    have hlt := hole.within
    rw [← hts, List.length_append] at hlt
    omega
  | trailing =>
    obtain ⟨p, pre, rfl⟩ := List.exists_cons_of_ne_nil (hpre rfl)
    obtain ⟨rfl, htail⟩ := List.cons.inj hts
    have hlt := hole.within
    rw [← htail, List.append_eq, List.length_append] at hlt
    omega
  | first _ hx hl ih =>
    subst hts
    have hitem := item_slot hslots hstop hsep hx hl hclose hole (hb rfl)
      fun before pre hmid hole hne => ih hclose hole nofun (fun _ => hne) hmid
    refine hitem.mono ?_
    rintro more vs ⟨mid, hm, hx, hl⟩
    exact .first hm hx hl
  | @next s x xs ts mid rest hne hs _ hx hl ih =>
    obtain ⟨p, pre, rfl⟩ := List.exists_cons_of_ne_nil (hpre rfl)
    obtain ⟨rfl, rfl⟩ := List.cons.inj hts
    have hawaits : AwaitsOperand (before ++ [p]) :=
      .mark hs (List.mem_append_right [openParen, openBrace] hsep)
    have hitem := item_slot hslots hstop hsep hx hl hclose (hole.after [p]) hawaits
      fun before pre hmid hole hne => ih hclose hole nofun (fun _ => hne) hmid
    refine hitem.behind [p] ?_
    rintro more vs ⟨mid, hm, hx, hl⟩
    exact .next hne hs hm hx hl

theorem Parser.Listed.slot_closed {stop separator : String} {xs : List Node} {c : Token}
    (hslots : Slotted depth)
    (h : Listed (readings depth).expression stop separator true xs (pre ++ us) (c :: rest))
    (hc : c.lexeme = .punctuation stop) (hstop : stop ∈ stops) (hsep : separator ∈ separators)
    (hole : Hole before pre us rest) (hb : AwaitsOperand before) :
    Slot pre us fun more ts =>
      Listed (readings (more + depth)).expression stop separator true xs ts (c :: rest) := by
  have hsuffix := h.suffix fun x ts mid hx => (expression_whole hx).suffix
  exact h.slot hslots hstop hsep (closes_stop hc hstop rest)
    (hole.before_mark hc (List.mem_append_left _ hstop) hsuffix) (fun _ => hb) nofun

theorem invocation_slot {callee n : Node} (hslots : Slotted depth)
    (h : (readings depth).Invocation callee n (pre ++ us) rest) (hole : Hole before pre us rest)
    (hpre : pre ≠ []) :
    Slot pre us fun more ts => (readings (more + depth)).Invocation callee n ts rest := by
  obtain ⟨p, pre, rfl⟩ := List.exists_cons_of_ne_nil hpre
  generalize hts : p :: pre ++ us = ts at h
  cases h with
  | uncalled =>
    have hlt := hole.within
    rw [← hts, List.length_append] at hlt
    omega
  | call ho hc hl =>
    obtain ⟨rfl, rfl⟩ := List.cons.inj hts
    have hlist := hl.slot_closed hslots hc (by decide) (by decide) (hole.after [p])
      (.mark ho (by decide))
    exact hlist.behind [p] fun more vs hv => .call ho hc hv

theorem rule_header {r o c b : Token} {name : Option String} {params ts us vs : List Token}
    (hr : r.lexeme = .keyword ruleWord) (hname : Named name ts (o :: us))
    (ho : o.lexeme = .punctuation openParen) (hc : c.lexeme = .punctuation closeParen)
    (hps : Listed Identifier closeParen comma true params us (c :: b :: vs))
    (hf : firstRepeated? [] params = none) (hb : b.lexeme = .punctuation openBrace) :
    ∃ header, r :: ts = header ++ b :: vs ∧
      (∀ before pre, OperandPlace (before ++ pre) → pre ≠ [] → ¬ pre <+: header) ∧
      ∀ (inner : Readings) {nodes : List Node} {d : Token} {body rest : List Token},
        d.lexeme = .punctuation closeBrace →
        Listed inner.expression closeBrace semicolon true nodes body (d :: rest) →
        inner.Atom (.rule name (params.filterMap (·.lexeme.text?)) (Node.sequence nodes))
          (header ++ b :: body) rest := by
  obtain ⟨title, rfl, hreads⟩ := hname.framed
  obtain ⟨title', heq, htitle⟩ := optionalName_of_named hname
  obtain rfl := List.append_cancel_right heq
  obtain ⟨names, rfl, hlist⟩ := hps.framed_names
  obtain ⟨names', texts, heq, -, -, hnames⟩ := names_of_listed hps
  obtain rfl := List.append_cancel_right heq
  refine ⟨r :: (title ++ o :: names) ++ [c], by simp, fun before pre h hne => ?_, ?_⟩
  · exact h.not_header hr htitle ho (Names.tokens hnames) hc hne
  · intro inner nodes d body rest hd hl
    have hsplit : r :: (title ++ o :: names) ++ [c] ++ b :: body =
        r :: (title ++ o :: (names ++ c :: b :: body)) := by simp
    rw [hsplit]
    exact .rule hr (hreads _) ho hc (hlist _) hf hb hd hl

theorem atom_slot {n : Node} (hslots : Slotted depth)
    (h : (readings depth).Atom n (pre ++ us) rest) (hole : Hole before pre us rest)
    (hb : AwaitsOperand before) (hpre : pre ≠ []) :
    Slot pre us fun more ts => (readings (more + depth)).Atom n ts rest := by
  obtain ⟨p, pre, rfl⟩ := List.exists_cons_of_ne_nil hpre
  generalize hts : p :: pre ++ us = ts at h
  cases h with
  | group ho hc hn =>
    obtain ⟨rfl, rfl⟩ := List.cons.inj hts
    have hclosed := (hole.after [p]).before_mark hc (by decide) (expression_whole hn).suffix
    have hslot := hslots.expression hn hclosed (.mark ho (by decide))
      (closes_stop hc (by decide) rest)
    exact hslot.behind [p] fun more vs hv => .group ho hc hv
  | block ho hc hl =>
    obtain ⟨rfl, rfl⟩ := List.cons.inj hts
    have hlist := hl.slot_closed hslots hc (by decide) (by decide) (hole.after [p])
      (.mark ho (by decide))
    exact hlist.behind [p] fun more vs hv => .block ho hc hv
  | rule hr hname ho hc hps hf hb hd hl =>
    obtain ⟨header, heq, hhead, hrule⟩ := rule_header hr hname ho hc hps hf hb
    rw [heq] at hts
    have hnot := hhead before (p :: pre) hole.place hpre
    rcases List.append_eq_append_iff.1 hts with ⟨as, hpart, -⟩ | ⟨bs, hpart, hbody⟩
    · exact absurd ⟨as, hpart.symm⟩ hnot
    cases bs with
    | nil => exact absurd ⟨[], hpart.trans (List.append_nil header) ▸ List.append_nil _⟩ hnot
    | cons b' body =>
      obtain ⟨rfl, rfl⟩ := List.cons.inj hbody
      rw [hpart, List.append_cons] at hole ⊢
      have hlist := hl.slot_closed hslots hd (by decide) (by decide) (hole.after _)
        (by rw [← List.append_assoc]; exact .mark hb (by decide))
      refine hlist.behind _ fun more vs hv => ?_
      rw [← List.append_cons]
      exact hrule _ hd hv
  | sign hs ht hn =>
    obtain ⟨rfl, rfl⟩ := List.cons.inj hts
    cases pre with
    | nil => exact absurd ⟨before, p, rfl, hs, hb⟩ hole.place.unsigned
    | cons q pre =>
      have hslot := hslots.operand hn (hole.after [p]) (.snoc (awaitsOperand_sign hs))
        (List.cons_ne_nil q pre)
      exact hslot.behind [p] fun more vs hv => .sign hs ht hv
  | truth | leaf =>
    obtain ⟨rfl, rfl⟩ := List.cons.inj hts
    have hlt := hole.within
    rw [List.append_eq, List.length_append] at hlt
    omega

theorem operand_slot {n : Node} (hslots : Slotted depth)
    (h : (readings depth).Operand n (pre ++ us) rest) (hole : Hole before pre us rest)
    (hb : AwaitsOperand before) (hpre : pre ≠ []) :
    Slot pre us fun more ts => (readings (more + depth)).Operand n ts rest := by
  obtain ⟨a, mid, ha, hn⟩ := h
  rcases (atom_whole ha).split hole with hole | ⟨used, p, later, rfl, rfl, hole, hread⟩
  · refine (atom_slot hslots ha hole hb hpre).mono fun more vs hv => ?_
    exact ⟨a, mid, hv, hn.mono (readings_le_add more depth)⟩
  · refine (invocation_slot hslots hn hole (List.cons_ne_nil p later)).behind used ?_
    exact fun more vs hv => ⟨a, _, hread more vs, hv⟩

end Productions

section Chains

variable {depth : Nat} {before pre us rest : List Token}
  (operand_slot : ∀ {n : Node} {before pre rest : List Token},
    (readings depth).operand n (pre ++ us) rest → Hole before pre us rest →
    AwaitsOperand before → pre ≠ [] →
    Slot pre us fun more ts => (readings (more + depth)).operand n ts rest)
include operand_slot

theorem chain_slot_of {least : Int} {d n : Node} {mid : List Token}
    (hd : (readings depth).operand d (pre ++ us) mid)
    (hn : Bindings (readings depth).operand d least n mid rest) (hole : Hole before pre us rest)
    (hb : AwaitsOperand before) (hpre : pre ≠ [])
    (ih : ∀ {before pre}, pre ++ us = mid → Hole before pre us rest → pre ≠ [] →
      Slot pre us fun more ts => Bindings (readings (more + depth)).operand d least n ts rest) :
    Slot pre us fun more ts => Chain (readings (more + depth)).operand least n ts rest := by
  rcases (operand_whole hd).split hole with hole | ⟨used, p, later, rfl, rfl, hole, hread⟩
  · refine (operand_slot hd hole hb hpre).mono fun more vs hv => ?_
    exact ⟨d, mid, hv, hn.mono (readings_le_add more depth).operand⟩
  · refine (ih rfl hole (List.cons_ne_nil p later)).behind used ?_
    exact fun more vs hv => ⟨d, _, hread more vs, hv⟩

theorem bindings_slot {left n : Node} {least : Int}
    (h : Bindings (readings depth).operand left least n (pre ++ us) rest)
    (hole : Hole before pre us rest) (hpre : pre ≠ []) :
    Slot pre us fun more ts =>
      Bindings (readings (more + depth)).operand left least n ts rest := by
  generalize hts : pre ++ us = ts at h
  induction h generalizing before pre with
  | bound =>
    have hlt := hole.within
    rw [← hts, List.length_append] at hlt
    omega
  | @pair t op power least left d right n ts m₁ m₂ rest ht hp hlt hd hright hn ihright ihn =>
    obtain ⟨p, pre, rfl⟩ := List.exists_cons_of_ne_nil hpre
    obtain ⟨rfl, rfl⟩ := List.cons.inj hts
    have hawaits : AwaitsOperand (before ++ [p]) := .snoc (Token.awaitsOperand_operator ht)
    have hchain : Chain (readings depth).operand power right (pre ++ us) m₂ := ⟨d, m₁, hd, hright⟩
    have pair {more : Nat} {us : List Token}
        (h : Chain (readings (more + depth)).operand power right us m₂) :
        Bindings (readings (more + depth)).operand left least n (p :: us) rest := by
      obtain ⟨d, mid, hd, hright⟩ := h
      exact .pair ht hp hlt hd hright (hn.mono (readings_le_add more depth).operand)
    rcases (chain_whole hchain).split (hole.after [p]) with
      hole | ⟨used, q, later, rfl, rfl, hole, hread⟩
    · cases pre with
      | nil => exact .chain ⟨p, rfl, op, ht⟩ hchain fun more vs hv => pair hv
      | cons q pre =>
        have hslot := chain_slot_of operand_slot hd hright hole hawaits (List.cons_ne_nil q pre)
          fun hmid hole hne => ihright hole hne hmid
        exact hslot.behind [p] fun more vs hv => pair hv
    · refine (ihn hole (List.cons_ne_nil q later) rfl).behind (p :: used) fun more vs hv => ?_
      obtain ⟨d, mid, hd, hright⟩ := hread more vs
      exact .pair ht hp hlt hd hright hv

theorem expression_slot {inner : Nat} {n : Node} (hslots : Slotted inner)
    (h : (readings inner).Expression (readings depth).operand n (pre ++ us) rest)
    (hole : Hole before pre us rest) (hb : AwaitsOperand before) (hpre : pre ≠ []) :
    Slot pre us fun more ts =>
      (readings (more + inner)).Expression (readings (more + depth)).operand n ts rest := by
  obtain ⟨chain, mid, hc, hn⟩ := h
  rcases (chain_whole hc).split hole with hole | ⟨used, p, later, rfl, rfl, hole, hread⟩
  · obtain ⟨d, m₁, hd, hright⟩ := hc
    have hslot := chain_slot_of operand_slot hd hright hole hb hpre fun hmid hole hne =>
      bindings_slot operand_slot (hmid ▸ hright) hole hne
    exact hslot.mono fun more vs hv => ⟨chain, mid, hv, hn.mono (readings_le_add more inner)⟩
  · refine (invocation_slot hslots hn hole (List.cons_ne_nil p later)).behind used ?_
    exact fun more vs hv => ⟨chain, _, hread more vs, hv⟩

end Chains

theorem slotted (depth : Nat) : Slotted depth := by
  induction depth with
  | zero => exact ⟨False.elim, False.elim⟩
  | succ depth ih =>
    have operand {n : Node} {before pre us rest : List Token}
        (h : (readings (depth + 1)).operand n (pre ++ us) rest) (hole : Hole before pre us rest)
        (hb : AwaitsOperand before) (hpre : pre ≠ []) :
        Slot pre us fun more ts => (readings (more + (depth + 1))).operand n ts rest :=
      operand_slot ih h hole hb hpre
    refine ⟨operand, fun {n before pre us rest} h hole hb hclose => ?_⟩
    cases pre with
    | nil => exact .expression h hclose fun more vs hv => hv
    | cons p pre => exact expression_slot operand ih h hole hb (List.cons_ne_nil p pre)

theorem statements_slot {depth : Nat} {ns : List Node} {before pre us : List Token}
    (h : Statements (readings depth).expression ns (pre ++ us)) (hole : Hole before pre us [])
    (hb : AwaitsOperand before) :
    Slot pre us fun more ts => Statements (readings (more + depth)).expression ns ts := by
  generalize hts : pre ++ us = ts at h
  induction h generalizing before pre with
  | finish =>
    have hlt := hole.within
    rw [(List.append_eq_nil_iff.1 hts).2] at hlt
    cases hlt
  | last hn =>
    subst hts
    exact ((slotted depth).expression hn hole hb closes_nil).mono fun more vs hv => .last hv
  | @statement n ns s ts rest hn hs hns ih =>
    subst hts
    rcases (expression_whole hn).split hole with hole | ⟨used, p, later, rfl, hmid, hole, hread⟩
    · have hslot := (slotted depth).expression hn hole hb (closes_separator hs (by decide) rest)
      exact hslot.mono fun more vs hv => .statement hv hs
        (hns.mono (readings_le_add more depth).expression)
    · obtain ⟨rfl, rfl⟩ := List.cons.inj hmid
      have hslot := ih (hole.after [s]) (.mark hs (by decide)) rfl
      rw [List.append_cons]
      refine hslot.behind (used ++ [s]) fun more vs hv => ?_
      rw [← List.append_cons]
      exact .statement (hread more vs) hs hv

end RuleLang
