import Mathlib.Data.List.Nodup
import RuleLang.Proofs.Returning

/-!
The language of programs. The grammar leaves open to which of several constructs an argument list
belongs; the readers give it to the first that can have it. This loses no program, since at most
two lists can be left over behind an operand, and it admits none, since each reading is a
derivation.
-/
namespace RuleLang

open RuleLang.Vocabulary RuleLang.Parser

inductive Symbol
  | program | expression | pairs | operand | optional | block | atom
  | list (separator : String)

inductive Names : List Token → List String → Prop
  | none : Names [] []
  | last {t : Token} {name : String} : t.lexeme = .identifier name → Names [t] [name]
  | more {t c : Token} {name : String} {ts : List Token} {names : List String} :
    t.lexeme = .identifier name → c.lexeme = .punctuation comma → Names ts names →
    Names (t :: c :: ts) (name :: names)

inductive OptionalName : List Token → Prop
  | none : OptionalName []
  | name {t : Token} {name : String} : t.lexeme = .identifier name → OptionalName [t]

/-- The grammar. A list has its separator between items, and perhaps behind the last. -/
inductive Derives : Symbol → List Token → Prop
  | noItems (separator : String) : Derives (.list separator) []
  | lastItem {separator : String} {ts : List Token} :
    Derives .expression ts → Derives (.list separator) ts
  | moreItems {separator : String} {s : Token} {ts us : List Token} :
    Derives .expression ts → s.lexeme = .punctuation separator → Derives (.list separator) us →
    Derives (.list separator) (ts ++ s :: us)
  | program {ts : List Token} : Derives (.list semicolon) ts → Derives .program ts
  | expression {ts us vs : List Token} :
    Derives .operand ts → Derives .pairs us → Derives .optional vs →
    Derives .expression (ts ++ (us ++ vs))
  | noPairs : Derives .pairs []
  | morePairs {t : Token} {op : String} {ts us : List Token} :
    t.lexeme = .operator op → (bindingPower? op).isSome → Derives .operand ts →
    Derives .pairs us → Derives .pairs (t :: (ts ++ us))
  | operand {ts us : List Token} :
    Derives .atom ts → Derives .optional us → Derives .operand (ts ++ us)
  | omitted : Derives .optional []
  | arguments {o c : Token} {ts : List Token} :
    o.lexeme = .punctuation openParen → Derives (.list comma) ts →
    c.lexeme = .punctuation closeParen → Derives .optional (o :: (ts ++ [c]))
  | block {o c : Token} {ts : List Token} :
    o.lexeme = .punctuation openBrace → Derives (.list semicolon) ts →
    c.lexeme = .punctuation closeBrace → Derives .block (o :: (ts ++ [c]))
  | leaf {t : Token} : t.lexeme.isLeaf → Derives .atom [t]
  | truth {t : Token} (value : Bool) : t.lexeme = .keyword (truthWord value) → Derives .atom [t]
  | group {o c : Token} {ts : List Token} :
    o.lexeme = .punctuation openParen → Derives .expression ts →
    c.lexeme = .punctuation closeParen → Derives .atom (o :: (ts ++ [c]))
  | braces {ts : List Token} : Derives .block ts → Derives .atom ts
  | rule {r o c : Token} {name params body : List Token} {names : List String} :
    r.lexeme = .keyword ruleWord → OptionalName name → o.lexeme = .punctuation openParen →
    Names params names → names.Nodup → c.lexeme = .punctuation closeParen →
    Derives .block body → Derives .atom (r :: (name ++ o :: (params ++ c :: body)))
  | sign {s : Token} {ts : List Token} :
    isOperatorAmong signOperators s.lexeme → ts.head?.any (takesSign ·.lexeme) →
    Derives .operand ts → Derives .atom (s :: ts)

theorem identifier_of_kind {x : Lexeme} (h : x.kind = .identifier) :
    ∃ name, x = .identifier name := by
  cases x <;> simp_all [Lexeme.kind]

theorem firstRepeated?_none {earlier : List (Option String)} {ts : List Token} :
    firstRepeated? earlier ts = none ↔
      (ts.map (·.lexeme.text?)).Nodup ∧ ∀ t ∈ ts, t.lexeme.text? ∉ earlier := by
  induction ts generalizing earlier with
  | nil => simp [firstRepeated?]
  | cons t ts ih =>
    simp only [firstRepeated?]
    split
    · next h => simp [h]
    · next h =>
      simp only [ih, List.map_cons, List.nodup_cons, List.mem_map, List.mem_append,
        List.mem_cons, List.not_mem_nil, or_false, forall_eq_or_imp, not_or, not_exists, not_and]
      grind

def NamesFrom : Bool → List Token → List String → Prop
  | true, ts, names => Names ts names
  | false, ts, names => ts = [] ∧ names = [] ∨
    ∃ c us, ts = c :: us ∧ c.lexeme = .punctuation comma ∧ Names us names

theorem NamesFrom.cons {t : Token} {name : String} {ts : List Token} {names : List String}
    (h : NamesFrom false ts names) (ht : t.lexeme = .identifier name) :
    Names (t :: ts) (name :: names) := by
  rcases h with ⟨rfl, rfl⟩ | ⟨c, us, rfl, hc, hus⟩
  · exact .last ht
  · exact .more ht hc hus

theorem names_of_listed {first : Bool} {params ts rest : List Token}
    (h : Listed Identifier closeParen comma first params ts rest) :
    ∃ used names, ts = used ++ rest ∧ params.map (·.lexeme) = names.map .identifier ∧
      params.Sublist used ∧ NamesFrom first used names := by
  induction h with
  | @stop first ts _ =>
    refine ⟨[], [], rfl, rfl, .slnil, ?_⟩
    cases first with
    | true => exact .none
    | false => exact .inl ⟨rfl, rfl⟩
  | @trailing s c rest _ hs _ =>
    exact ⟨[s], [], rfl, rfl, List.nil_sublist _, .inr ⟨s, [], rfl, hs, .none⟩⟩
  | @first t params ts mid rest _ ht _ ih =>
    obtain ⟨used, names, rfl, hnames, hsub, hmore⟩ := ih
    obtain ⟨rfl, hk⟩ := ht
    obtain ⟨name, hname⟩ := identifier_of_kind hk
    refine ⟨t :: used, name :: names, rfl, ?_, hsub.cons_cons t, hmore.cons hname⟩
    rw [List.map_cons, List.map_cons, hnames, hname]
  | @next s t params ts mid rest _ hs _ ht _ ih =>
    obtain ⟨used, names, rfl, hnames, hsub, hmore⟩ := ih
    obtain ⟨rfl, hk⟩ := ht
    obtain ⟨name, hname⟩ := identifier_of_kind hk
    refine ⟨s :: t :: used, name :: names, rfl, ?_, (hsub.cons_cons t).cons s, ?_⟩
    · rw [List.map_cons, List.map_cons, hnames, hname]
    · exact .inr ⟨s, t :: used, rfl, hs, hmore.cons hname⟩

theorem Parser.Listed.after_separator {α : Type} {item : α → List Token → List Token → Prop}
    {stop separator : String} {xs : List α} {s : Token} {ts rest : List Token}
    (h : Listed item stop separator true xs ts rest) (hts : ts ≠ [])
    (hs : s.lexeme = .punctuation separator) (hne : stop ≠ separator) :
    Listed item stop separator false xs (s :: ts) rest := by
  have hs' : s.lexeme ≠ .punctuation stop := by
    rw [hs]
    exact fun h => hne (Lexeme.punctuation.inj h).symm
  cases h with
  | stop hends =>
    cases ts with
    | nil => exact absurd rfl hts
    | cons c ts => exact .trailing hs' hs (ends_cons.1 hends)
  | first hm hx hxs => exact .next hs' hs hm hx hxs

theorem Names.listed {ts : List Token} {names : List String} (h : Names ts names) {c : Token}
    (hc : c.lexeme = .punctuation closeParen) (rest : List Token) :
    ∃ params, Listed Identifier closeParen comma true params (ts ++ c :: rest) (c :: rest) ∧
      params.map (·.lexeme) = names.map .identifier := by
  have not_stop {t : Token} {name : String} {us : List Token} (ht : t.lexeme = .identifier name) :
      isMark closeParen (t :: us).head? = false := not_isMark (by simp [ht])
  induction h with
  | none => exact ⟨[], .stop (ends_cons.2 hc), rfl⟩
  | @last t name ht =>
    refine ⟨[t], .first (not_stop ht) ⟨rfl, by rw [ht]; rfl⟩ (.stop (ends_cons.2 hc)), ?_⟩
    simp [ht]
  | @more t s name ts names ht hs _ ih =>
    obtain ⟨params, hl, hnames⟩ := ih
    refine ⟨t :: params, .first (not_stop ht) ⟨rfl, by rw [ht]; rfl⟩ ?_, ?_⟩
    · exact hl.after_separator (by simp) hs (by decide)
    · rw [List.map_cons, List.map_cons, hnames, ht]

theorem nodup_names {params : List Token} {names : List String}
    (h : params.map (·.lexeme) = names.map .identifier) :
    firstRepeated? [] params = none ↔ names.Nodup := by
  have htexts : params.map (·.lexeme.text?) = names.map some := by
    calc params.map (·.lexeme.text?)
      _ = (params.map (·.lexeme)).map Lexeme.text? := by rw [List.map_map]; rfl
      _ = names.map some := by rw [h, List.map_map]; rfl
  rw [firstRepeated?_none, htexts]
  simp [List.nodup_map_iff fun _ _ => Option.some.inj]

def Parser.Phrase.Derived : Phrase → List Token → Prop
  | .program _ => Derives .program
  | .expression _ => Derives .expression
  | .operand _ => Derives .operand
  | .atom _ => Derives .atom
  | .bindings _ _ _ => Derives .pairs
  | .invocation _ _ => Derives .optional

theorem Derives.appendPairs {ts us : List Token} (h : Derives .pairs ts) (hu : Derives .pairs us) :
    Derives .pairs (ts ++ us) := by
  generalize hs : Symbol.pairs = s at h
  induction h with
  | noPairs => exact hu
  | @morePairs t op ts us' ht hp hd _ _ ih =>
    rw [List.cons_append, List.append_assoc]
    exact .morePairs ht hp hd (ih hs)
  | _ => cases hs

def Opens (ts : List Token) : Prop := ∃ t us, ts = t :: us ∧ Opening.of t.lexeme ≠ .none

theorem Opens.append {ts : List Token} (h : Opens ts) (us : List Token) : Opens (ts ++ us) := by
  obtain ⟨t, vs, rfl, ht⟩ := h
  exact ⟨t, vs ++ us, rfl, ht⟩

theorem Derives.opens {s : Symbol} {ts : List Token} (h : Derives s ts)
    (hs : s = .expression ∨ s = .operand ∨ s = .atom ∨ s = .block) : Opens ts := by
  induction h with
  | expression _ _ _ ih => exact (ih (by simp)).append _
  | operand _ _ ih => exact (ih (by simp)).append _
  | @block o c ts ho => exact ⟨o, _, rfl, by simp [opening_braces ho]⟩
  | @leaf t ht => exact ⟨t, _, rfl, by simp [opening_leaf ht]⟩
  | @truth t value ht => exact ⟨t, _, rfl, by simp [opening_truth ht]⟩
  | @group o c ts ho => exact ⟨o, _, rfl, by simp [opening_group ho]⟩
  | braces _ ih => exact ih (by simp)
  | @rule r o c name params body names hr => exact ⟨r, _, rfl, by simp [opening_declaration hr]⟩
  | @sign t ts ht => exact ⟨t, _, rfl, by simp [opening_sign ht]⟩
  | _ => simp at hs

structure ListLanguage (item : List Token → Prop) (separator : String)
    (L : Bool → List Token → Prop) : Prop where
  none (first : Bool) : L first []
  item {ts us : List Token} : item ts → L false us → L true (ts ++ us)
  separator {s : Token} {us : List Token} :
    s.lexeme = .punctuation separator → L true us → L false (s :: us)

theorem Parser.Listed.spans {α : Type} {item : α → List Token → List Token → Prop}
    {K : List Token → Prop} {L : Bool → List Token → Prop} {stop separator : String} {first : Bool}
    {xs : List α} {ts rest : List Token} (hl : ListLanguage K separator L)
    (hi : ∀ x us mid, item x us mid → ∃ used, us = used ++ mid ∧ K used)
    (h : Listed item stop separator first xs ts rest) :
    ∃ used, ts = used ++ rest ∧ L first used := by
  induction h with
  | stop _ => exact ⟨[], rfl, hl.none _⟩
  | @trailing s c rest _ hs _ => exact ⟨[s], rfl, hl.separator hs (hl.none true)⟩
  | @first x xs ts mid rest _ hx _ ih =>
    obtain ⟨head, rfl, hhead⟩ := hi _ _ _ hx
    obtain ⟨used, rfl, hused⟩ := ih
    exact ⟨head ++ used, by simp, hl.item hhead hused⟩
  | @next s x xs ts mid rest _ hs _ hx _ ih =>
    obtain ⟨head, rfl, hhead⟩ := hi _ _ _ hx
    obtain ⟨used, rfl, hused⟩ := ih
    exact ⟨s :: (head ++ used), by simp, hl.separator hs (hl.item hhead hused)⟩

/-- The derivations of a list, and those of what may follow an item. -/
def Items (separator : String) : Bool → List Token → Prop
  | true, ts => Derives (.list separator) ts
  | false, ts => ts = [] ∨ ∃ s us, ts = s :: us ∧ s.lexeme = .punctuation separator ∧
    Derives (.list separator) us

theorem items_language (separator : String) :
    ListLanguage (Derives .expression) separator (Items separator) where
  none first := by
    cases first with
    | true => exact .noItems separator
    | false => exact .inl rfl
  item {ts us} ht hu := by
    rcases hu with rfl | ⟨s, vs, rfl, hs, hvs⟩
    · rw [List.append_nil]
      exact .lastItem ht
    · exact .moreItems ht hs hvs
  separator hs hu := .inr ⟨_, _, rfl, hs, hu⟩

theorem optionalName_of_named {name : Option String} {ts rest : List Token}
    (h : Named name ts rest) : ∃ used, ts = used ++ rest ∧ OptionalName used := by
  cases h with
  | anonymous => exact ⟨[], rfl, .none⟩
  | @name t rest hk =>
    obtain ⟨name, hname⟩ := identifier_of_kind hk
    exact ⟨[t], rfl, .name hname⟩

theorem Parser.Reads.derived {phrase : Phrase} {ts rest : List Token} (h : Reads phrase ts rest) :
    ∃ used, ts = used ++ rest ∧ phrase.Derived used := by
  induction h with
  | finish => exact ⟨[], rfl, .program (.noItems _)⟩
  | @last n ts _ ih =>
    obtain ⟨used, rfl, hused⟩ := ih
    exact ⟨used, rfl, .program (.lastItem hused)⟩
  | @statement n ns s ts rest _ hs _ ihn ihns =>
    obtain ⟨used, rfl, hused⟩ := ihn
    obtain ⟨more, rfl, hmore⟩ := ihns
    cases hmore with
    | program hmore =>
      refine ⟨used ++ s :: more, by simp, .program (.moreItems hused hs hmore)⟩
  | expression _ _ _ ihd ihc ihn =>
    obtain ⟨us, rfl, hus⟩ := ihd
    obtain ⟨vs, rfl, hvs⟩ := ihc
    obtain ⟨ws, rfl, hws⟩ := ihn
    exact ⟨us ++ (vs ++ ws), by simp, .expression hus hvs hws⟩
  | operand _ _ iha ihn =>
    obtain ⟨us, rfl, hus⟩ := iha
    obtain ⟨vs, rfl, hvs⟩ := ihn
    exact ⟨us ++ vs, by simp, .operand hus hvs⟩
  | uncalled _ => exact ⟨[], rfl, .omitted⟩
  | @call item o c callee args ts rest hi ho hc hl ih =>
    obtain ⟨used, rfl, hused⟩ := hl.spans (items_language comma) ih
    exact ⟨o :: (used ++ [c]), by simp, .arguments ho hused hc⟩
  | bound _ => exact ⟨[], rfl, .noPairs⟩
  | @pair t op power least left d right n ts m₁ m₂ rest ht hp _ _ _ _ ihd ihright ihn =>
    obtain ⟨us, rfl, hus⟩ := ihd
    obtain ⟨vs, rfl, hvs⟩ := ihright
    obtain ⟨ws, rfl, hws⟩ := ihn
    exact ⟨t :: (us ++ (vs ++ ws)), by simp,
      .morePairs ht (by simp [hp]) hus (hvs.appendPairs hws)⟩
  | @group o c n ts rest ho hc _ ih =>
    obtain ⟨used, rfl, hused⟩ := ih
    exact ⟨o :: (used ++ [c]), by simp, .group ho hused hc⟩
  | @block item o c nodes ts rest hi ho hc hl ih =>
    obtain ⟨used, rfl, hused⟩ := hl.spans (items_language semicolon) ih
    exact ⟨o :: (used ++ [c]), by simp, .braces (.block ho hused hc)⟩
  | @rule item r o c b d name params nodes ts us vs rest hi hk hname ho hc hparams hf hb hd hl ih =>
    obtain ⟨title, rfl, htitle⟩ := optionalName_of_named hname
    obtain ⟨used, names, hused, hnames, _, hlist⟩ := names_of_listed hparams
    obtain ⟨body, rfl, hbody⟩ := hl.spans (items_language semicolon) ih
    subst hused
    exact ⟨r :: (title ++ o :: (used ++ c :: (b :: (body ++ [d])))), by simp,
      .rule hk htitle ho hlist ((nodup_names hnames).1 hf) hc (.block hb hbody hd)⟩
  | @sign s n ts rest hs ht _ ih =>
    obtain ⟨used, rfl, hused⟩ := ih
    refine ⟨s :: used, rfl, .sign hs ?_ hused⟩
    obtain ⟨t, us, rfl, _⟩ := hused.opens (by simp)
    exact ht
  | @truth t value rest ht => exact ⟨[t], rfl, .truth value ht⟩
  | @leaf t rest ht => exact ⟨[t], rfl, .leaf ht⟩

end RuleLang
