import RuleLang.Proofs.Acceptance

/-!
What stands behind a phrase. Of the tokens behind a phrase its reading sees two things: whether
they begin with an argument list, and which operator they begin with, if any. The phrase is read
alike before all tokens that look the same in this respect.
-/
namespace RuleLang

open RuleLang.Vocabulary RuleLang.Parser

/-- Lists of tokens that look alike from in front of them. -/
def SameView (ts us : List Token) : Prop :=
  isMark openParen ts.head? = isMark openParen us.head? ∧
    operatorText? ts.head? = operatorText? us.head?

namespace SameView

variable {ts us : List Token} {t u : Token}

theorem cons (t : Token) (ts us : List Token) : SameView (t :: ts) (t :: us) := ⟨rfl, rfl⟩

theorem append (xs : List Token) (h : SameView ts us) : SameView (xs ++ ts) (xs ++ us) := by
  cases xs with
  | nil => exact h
  | cons x xs => exact cons x _ _

theorem of_closes (ht : Closes ts) (hu : Closes us) : SameView ts us :=
  ⟨ht.not_open.trans hu.not_open.symm, ht.no_operator.trans hu.no_operator.symm⟩

theorem stops {least : Int} (h : SameView ts us) (hs : Stops least ts) : Stops least us := by
  intro op hop
  exact hs op (h.2.trans hop)

end SameView

namespace Parser

theorem Ends.of_head {stop : String} {ts us : List Token} (h : Ends stop ts)
    (hh : ts.head? = us.head?) : Ends stop us := by
  intro t ht
  exact h t (hh ▸ ht)

/-- What is read as an item before some tokens is read so before all that look like them. -/
def Framed {α : Type} (item : α → List Token → List Token → Prop) (x : α)
    (ts rest : List Token) : Prop :=
  ∃ used, ts = used ++ rest ∧ ∀ rest', SameView rest rest' → item x (used ++ rest') rest'

def Operation (least : Int) (n : Node) (ts rest : List Token) : Prop :=
  ∃ d mid, Reads (.operand d) ts mid ∧ Reads (.bindings d least n) mid rest

namespace Operation

variable {least : Int} {n : Node} {ts mid rest : List Token}

theorem expression {called : Node} (h : Operation 0 n ts mid)
    (hcall : Reads (.invocation n called) mid rest) : Reads (.expression called) ts rest := by
  obtain ⟨_, _, hd, hn⟩ := h
  exact .expression hd hn hcall

theorem pair {t : Token} {op : String} {power : Int} {left more : Node}
    (h : Operation power n ts mid) (ht : t.lexeme = .operator op)
    (hp : bindingPower? op = some power) (hlt : least < power)
    (hmore : Reads (.bindings (Node.joined op left n) least more) mid rest) :
    Reads (.bindings left least more) (t :: ts) rest := by
  obtain ⟨_, _, hd, hn⟩ := h
  exact .pair ht hp hlt hd hn hmore

theorem framed {d : Node} (hd : Framed Reads (.operand d) ts mid)
    (hn : Framed Reads (.bindings d least n) mid rest) : Framed (Operation least) n ts rest := by
  obtain ⟨us, rfl, hoperand⟩ := hd
  obtain ⟨vs, rfl, hbindings⟩ := hn
  refine ⟨us ++ vs, by rw [List.append_assoc], fun rest' hv => ?_⟩
  rw [List.append_assoc]
  exact ⟨d, _, hoperand _ (hv.append vs), hbindings _ hv⟩

end Operation

theorem Listed.framed {α : Type} {item item' : α → List Token → List Token → Prop}
    {stop separator : String} {first : Bool} {xs : List α} {ts rest : List Token}
    (h : Listed item stop separator first xs ts rest)
    (hi : ∀ x us mid, item x us mid → mid.length < us.length ∧ Framed item' x us mid) :
    ∃ used, ts = used ++ rest ∧ ∀ rest', rest.head? = rest'.head? →
      Listed item' stop separator first xs (used ++ rest') rest' := by
  have view {us vs : List Token} (hh : us.head? = vs.head?) : SameView us vs := by
    rw [SameView, hh]
    exact ⟨rfl, rfl⟩
  -- an item is not empty, so that the list begins as before
  have begins {us mid used : List Token} (hx : mid.length < us.length) (hu : us = used ++ mid)
      (more : List Token) : us.head? = (used ++ more).head? := by
    subst hu
    cases used with
    | nil => exact absurd hx (Nat.lt_irrefl _)
    | cons => rfl
  induction h with
  | stop he => exact ⟨[], rfl, fun rest' hh => .stop (he.of_head hh)⟩
  | @trailing s c rest hne hs hc =>
    refine ⟨[s], rfl, fun rest' hh => ?_⟩
    cases rest' with
    | nil => cases hh
    | cons d rest' =>
      obtain rfl : c = d := Option.some.inj hh
      exact .trailing hne hs hc
  | @first x xs ts mid rest hm hx _ ih =>
    obtain ⟨hlt, used, hu, hitem⟩ := hi _ _ _ hx
    obtain ⟨more, rfl, hmore⟩ := ih
    refine ⟨used ++ more, by rw [hu, List.append_assoc], fun rest' hh => ?_⟩
    rw [begins hlt hu] at hm
    rw [List.append_assoc]
    exact .first hm (hitem _ ((view hh).append more)) (hmore rest' hh)
  | @next s x xs ts mid rest hne hs hm hx _ ih =>
    obtain ⟨hlt, used, hu, hitem⟩ := hi _ _ _ hx
    obtain ⟨more, rfl, hmore⟩ := ih
    refine ⟨s :: (used ++ more), by rw [hu, List.cons_append, List.append_assoc], ?_⟩
    intro rest' hh
    rw [begins hlt hu] at hm
    rw [List.cons_append, List.append_assoc]
    exact .next hne hs hm (hitem _ ((view hh).append more)) (hmore rest' hh)

theorem Named.framed {name : Option String} {o : Token} {ts rest : List Token}
    (h : Named name ts (o :: rest)) :
    ∃ used, ts = used ++ o :: rest ∧ ∀ rest', Named name (used ++ o :: rest') (o :: rest') := by
  cases h with
  | anonymous => exact ⟨[], rfl, fun rest' => .anonymous _⟩
  | @name t _ hk => exact ⟨[t], rfl, fun rest' => .name hk⟩

theorem Listed.framed_names {params ts rest : List Token} {c : Token}
    (h : Listed Identifier closeParen comma true params ts (c :: rest)) :
    ∃ used, ts = used ++ c :: rest ∧ ∀ rest',
      Listed Identifier closeParen comma true params (used ++ c :: rest') (c :: rest') := by
  have hi (t : Token) (us mid : List Token) (ht : Identifier t us mid) :
      mid.length < us.length ∧ Framed Identifier t us mid :=
    ⟨identifier_length ht, [t], ht.1, fun mid' _ => ⟨rfl, ht.2⟩⟩
  obtain ⟨used, hts, hrest⟩ := h.framed hi
  exact ⟨used, hts, fun rest' => hrest (c :: rest') rfl⟩

def Phrase.Framed : Phrase → List Token → List Token → Prop
  | .program _, _, _ => True
  | phrase, ts, rest => Parser.Framed Reads phrase ts rest

theorem Reads.framed_phrase {phrase : Phrase} {ts rest : List Token} (h : Reads phrase ts rest) :
    phrase.Framed ts rest := by
  have listed {item : Node → List Token → List Token → Prop} {stop separator : String}
      {first : Bool} {nodes : List Node} {ts rest : List Token} {c : Token}
      (hl : Listed item stop separator first nodes ts (c :: rest))
      (hi : ∀ n ts rest, item n ts rest → Reads (.expression n) ts rest)
      (ih : ∀ n ts rest, item n ts rest → Phrase.Framed (.expression n) ts rest) :
      ∃ used, ts = used ++ c :: rest ∧ ∀ rest', Listed (fun n ts rest =>
        Reads (.expression n) ts rest) stop separator first nodes (used ++ c :: rest')
        (c :: rest') := by
    obtain ⟨used, hts, hrest⟩ := hl.framed fun n us mid hn =>
      ⟨(hi n us mid hn).length_le, ih n us mid hn⟩
    exact ⟨used, hts, fun rest' => hrest (c :: rest') rfl⟩
  have reads : ∀ n ts rest, Reads (.expression n) ts rest → Reads (.expression n) ts rest :=
    fun _ _ _ h => h
  induction h with
  | finish | last | statement => trivial
  | expression _ _ _ ihd ihc ihn =>
    obtain ⟨us, rfl, hoperation⟩ := Operation.framed ihd ihc
    obtain ⟨vs, rfl, hn⟩ := ihn
    refine ⟨us ++ vs, by rw [List.append_assoc], fun rest' hv => ?_⟩
    rw [List.append_assoc]
    exact (hoperation _ (hv.append vs)).expression (hn _ hv)
  | operand _ _ iha ihn =>
    obtain ⟨us, rfl, ha⟩ := iha
    obtain ⟨vs, rfl, hn⟩ := ihn
    refine ⟨us ++ vs, by simp only [List.append_assoc], fun rest' hv => ?_⟩
    rw [List.append_assoc]
    exact .operand (ha _ (hv.append vs)) (hn _ hv)
  | uncalled hm => exact ⟨[], rfl, fun rest' hv => .uncalled (hv.1 ▸ hm)⟩
  | @call item o c callee args ts rest hi ho hc hl ih =>
    obtain ⟨used, rfl, hargs⟩ := listed hl hi ih
    refine ⟨o :: (used ++ [c]), by simp, fun rest' _ => ?_⟩
    rw [List.cons_append, List.append_assoc]
    exact .call reads ho hc (hargs rest')
  | bound hs => exact ⟨[], rfl, fun rest' hv => .bound (hv.stops hs)⟩
  | @pair t op power least left d right n ts m₁ m₂ rest ht hp hlt _ _ _ ihd ihright ihn =>
    obtain ⟨us, rfl, hright⟩ := Operation.framed ihd ihright
    obtain ⟨vs, rfl, hn⟩ := ihn
    refine ⟨t :: (us ++ vs), by rw [List.cons_append, List.append_assoc], fun rest' hv => ?_⟩
    rw [List.cons_append, List.append_assoc]
    exact (hright _ (hv.append vs)).pair ht hp hlt (hn _ hv)
  | @group o c n ts rest ho hc _ ih =>
    obtain ⟨used, rfl, hn⟩ := ih
    refine ⟨o :: (used ++ [c]), by simp, fun rest' _ => ?_⟩
    rw [List.cons_append, List.append_assoc]
    exact .group ho hc (hn (c :: rest') (.cons c rest rest'))
  | @block item o c nodes ts rest hi ho hc hl ih =>
    obtain ⟨used, rfl, hbody⟩ := listed hl hi ih
    refine ⟨o :: (used ++ [c]), by simp, fun rest' _ => ?_⟩
    rw [List.cons_append, List.append_assoc]
    exact .block reads ho hc (hbody rest')
  | @rule item r o c b d name params nodes ts us vs rest hi hr hname ho hc hps hf hb hd hl ih =>
    obtain ⟨title, rfl, htitle⟩ := hname.framed
    obtain ⟨names, rfl, hnames⟩ := hps.framed_names
    obtain ⟨body, rfl, hbody⟩ := listed hl hi ih
    refine ⟨r :: (title ++ o :: (names ++ c :: b :: (body ++ [d]))), by simp, fun rest' _ => ?_⟩
    simp only [List.cons_append, List.append_assoc, List.nil_append]
    exact .rule reads hr (htitle _) ho hc (hnames _) hf hb hd (hbody rest')
  | @sign s n ts rest hs ht hn ih =>
    obtain ⟨used, rfl, hrest⟩ := ih
    refine ⟨s :: used, rfl, fun rest' hv => ?_⟩
    have hhead : (used ++ rest).head? = (used ++ rest').head? := by
      cases used with
      | nil => exact absurd hn.length_le (Nat.not_succ_le_self _)
      | cons => rfl
    exact .sign hs (hhead ▸ ht) (hrest _ hv)
  | @truth t value rest ht => exact ⟨[t], rfl, fun rest' _ => .truth ht⟩
  | @leaf t rest ht => exact ⟨[t], rfl, fun rest' _ => .leaf ht⟩

theorem Reads.framed {phrase : Phrase} {ts rest : List Token} (h : Reads phrase ts rest)
    (hp : ∀ ns, phrase ≠ .program ns) : Framed Reads phrase ts rest := by
  have hframed := h.framed_phrase
  cases phrase with
  | program ns => exact absurd rfl (hp ns)
  | _ => exact hframed

end Parser

end RuleLang
