import RuleLang.Proofs.Acceptance
import RuleLang.Proofs.Laziness

/-!
Errors come first. A reader that fails has taken tokens that some program begins with, unless a
parameter is declared twice, which shows only at the end of the parameter list. What refuses the
next token refuses it whatever follows, so the error is that of every text that begins alike.
-/
namespace RuleLang

open RuleLang.Vocabulary RuleLang.Parser

inductive Header : List Token → List String → Prop
  | intro {r o : Token} {title params : List Token} {names : List String} :
    r.lexeme = .keyword ruleWord → OptionalName title → o.lexeme = .punctuation openParen →
    Names params names → Header (r :: (title ++ o :: params)) names

/-- No head of a rule among the tokens has a parameter twice. -/
def NoRepeat (ts : List Token) : Prop :=
  ∀ before header after names, ts = before ++ (header ++ after) → Header header names → names.Nodup

theorem NoRepeat.right {ts us : List Token} (h : NoRepeat (ts ++ us)) : NoRepeat us := by
  intro before header after names hus hheader
  refine h (ts ++ before) header after names ?_ hheader
  rw [hus, List.append_assoc]

theorem NoRepeat.nodup {r o : Token} {title params : List Token} {names : List String}
    (h : NoRepeat (r :: (title ++ o :: params))) (hr : r.lexeme = .keyword ruleWord)
    (htitle : OptionalName title) (ho : o.lexeme = .punctuation openParen)
    (hp : Names params names) : names.Nodup :=
  h [] _ [] names (by rw [List.append_nil, List.nil_append]) (.intro hr htitle ho hp)

/-- The failure about a parameter that is declared twice in the list that the tokens end with. -/
inductive Repeats : Failure → List Token → Prop
  | intro {r o c t u : Token} {before title us vs : List Token} {names : List String} {a : String} :
    r.lexeme = .keyword ruleWord → OptionalName title → o.lexeme = .punctuation openParen →
    Names (us ++ t :: vs) names → c.lexeme = .punctuation closeParen →
    u ∈ us → u.lexeme = .identifier a → t.lexeme = .identifier a →
    Repeats (.malformed ⟨t.position, .duplicateParameter a⟩)
      (before ++ r :: (title ++ o :: (us ++ t :: vs ++ [c])))

theorem Repeats.after {e : Failure} {ts : List Token} (h : Repeats e ts) (us : List Token) :
    Repeats e (us ++ ts) := by
  cases h with
  | intro hr hname ho hnames hc hu hua hta =>
    rw [← List.append_assoc]
    exact .intro hr hname ho hnames hc hu hua hta

theorem Repeats.duplicate {e : Failure} {ts : List Token} (h : Repeats e ts) : e.IsDuplicate := by
  cases h
  exact ⟨_, rfl⟩

def Stuck (L : List Token → Prop) (e : Failure) (ts : List Token) : Prop :=
  Repeats e ts ∨ ¬ e.IsDuplicate ∧ (NoRepeat ts → ∃ more, L (ts ++ more))

namespace Parser

variable {α β : Type}

/-- Behind the tokens done, the reader gets stuck on a part of the language if it fails. -/
def Faults (p : Parser Scan α) (done ts : List Token) (L : List Token → Prop) : Prop :=
  ∀ stop e s, p ⟨ts, stop, none⟩ = .error e s → e = .exhausted ∨ e.IsTooDeep ∨
    ∃ used rest, ts = used ++ rest ∧ s = ⟨rest, stop, none⟩ ∧ Stuck L e (done ++ used)

/-- A reader of what a language has, which gets stuck on a part of it if it fails. -/
structure Covers (L : List Token → Prop) (p : Parser Scan α) : Prop where
  yields (ts : List Token) : Yields p ts fun _ rest => ∃ used, ts = used ++ rest ∧ L used
  faults (ts : List Token) : Faults p [] ts L

namespace Faults

variable {p : Parser Scan α} {done ts : List Token} {L : List Token → Prop}

theorem pure (a : α) : Faults (pure a) done ts L := by
  intro stop e s h
  cases h

theorem exhausted : Faults (throw .exhausted : Parser Scan α) done ts L := by
  intro stop e s h
  obtain ⟨rfl, _⟩ := EStateM.Result.error.inj h
  exact .inl rfl

theorem fail {cause : Cause} (hc : ∀ a, cause ≠ .duplicateParameter a)
    (hL : NoRepeat done → ∃ more, L (done ++ more)) :
    Faults (Parser.fail cause : Parser Scan α) done ts L := by
  intro stop e s h
  obtain ⟨rfl, rfl⟩ := EStateM.Result.error.inj h
  refine .inr (.inr ⟨[], ts, rfl, rfl, ?_⟩)
  rw [List.append_nil]
  refine .inr ⟨fun hd => ?_, hL⟩
  obtain ⟨a, ha⟩ := hd
  exact hc a ha

theorem look {f : Option Token → Parser Scan α} (h : Faults (f ts.head?) done ts L) :
    Faults (peek >>= f) done ts L := by
  intro stop e s hf
  cases ts with
  | nil => exact h stop e s hf
  | cons t ts => exact h stop e s hf

theorem bind {f : α → Parser Scan β} (hp : Faults p done ts L)
    (hf : Yields p ts fun a mid => ∃ used, ts = used ++ mid ∧
      Faults (f a) (done ++ used) mid L) : Faults (p >>= f) done ts L := by
  intro stop e s h
  rcases bind_error.1 h with he | ⟨a, m, ha, he⟩
  · exact hp stop e s he
  · obtain ⟨mid, rfl, used, rfl, hfa⟩ := hf stop a m ha
    rcases hfa stop e s he with hx | hx | ⟨used', rest, rfl, rfl, hs⟩
    · exact .inl hx
    · exact .inr (.inl hx)
    · refine .inr (.inr ⟨used ++ used', rest, by simp, rfl, ?_⟩)
      rwa [← List.append_assoc]

theorem next {t : Token} {f : Option Token → Parser Scan α}
    (h : Faults (f (some t)) (done ++ [t]) ts L) : Faults (next >>= f) done (t :: ts) L := by
  refine .bind (fun stop e s hn => ?_) (.next ⟨[t], rfl, h⟩)
  cases hn

theorem token {wanted : Lexeme → Bool} {cause : Cause}
    (hc : ∀ a, cause ≠ .duplicateParameter a) (hL : NoRepeat done → ∃ more, L (done ++ more)) :
    Faults (Parser.expect wanted cause) done ts L := by
  intro stop e s he
  have hfail : Parser.fail cause (⟨ts, stop, none⟩ : Scan) =
      (.error e s : EStateM.Result Failure Scan Token) := by
    cases ts with
    | nil => exact he
    | cons t ts =>
      rw [expect_cons] at he
      split at he
      · cases he
      · exact he
  exact (fail hc hL : Faults (Parser.fail cause : Parser Scan Token) done ts L) stop e s hfail

theorem expect {wanted : Lexeme → Bool} {cause : Cause} {f : Token → Parser Scan α}
    (hc : ∀ a, cause ≠ .duplicateParameter a) (hL : NoRepeat done → ∃ more, L (done ++ more))
    (h : ∀ t rest, ts = t :: rest → wanted t.lexeme → Faults (f t) (done ++ [t]) rest L) :
    Faults (expect wanted cause >>= f) done ts L :=
  .bind (.token hc hL) (.expect fun t rest ht hw => ⟨[t], ht, h t rest ht hw⟩)

theorem mark {text : String} {f : Token → Parser Scan α}
    (hL : NoRepeat done → ∃ more, L (done ++ more))
    (h : ∀ t rest, ts = t :: rest → t.lexeme = .punctuation text →
      Faults (f t) (done ++ [t]) rest L) :
    Faults (expectPunctuation text >>= f) done ts L :=
  .expect (by simp) hL fun t rest ht hw => h t rest ht (of_decide_eq_true hw)

theorem unexpected (hL : NoRepeat done → ∃ more, L (done ++ more)) :
    Faults (Parser.unexpected : Parser Scan α) done ts L := by
  apply look
  cases ts.head? with
  | none => exact fail (by simp) hL
  | some t => exact fail (by simp) hL

theorem embed {L' : List Token → Prop} (h : Faults p [] ts L')
    (hL : ∀ used rest more, ts = used ++ rest → L' (used ++ more) → NoRepeat (done ++ used) →
      ∃ more', L (done ++ (used ++ more'))) : Faults p done ts L := by
  intro stop e s he
  rcases h stop e s he with hx | hx | ⟨used, rest, hts, hs, hstuck⟩
  · exact .inl hx
  · exact .inr (.inl hx)
  · refine .inr (.inr ⟨used, rest, hts, hs, ?_⟩)
    rcases hstuck with hr | ⟨hd, hmore⟩
    · exact .inl (hr.after done)
    · refine .inr ⟨hd, fun hn => ?_⟩
      obtain ⟨more, hm⟩ := hmore hn.right
      obtain ⟨more', hm'⟩ := hL used rest more hts hm hn
      exact ⟨more', by rwa [List.append_assoc]⟩

theorem part {L' : List Token → Prop} {f : α → Parser Scan β} (h : Covers L' p)
    (hL : ∀ us, L' us → ∃ more, L (done ++ (us ++ more)))
    (hf : ∀ a us rest, ts = us ++ rest → L' us → Faults (f a) (done ++ us) rest L) :
    Faults (p >>= f) done ts L := by
  refine .bind (.embed (h.faults ts) fun used _ more _ hm _ => ?_)
    ((h.yields ts).mono fun a rest ha => ?_)
  · obtain ⟨more', hm'⟩ := hL _ hm
    exact ⟨more ++ more', by rwa [← List.append_assoc used]⟩
  · obtain ⟨us, hts, hus⟩ := ha
    exact ⟨us, hts, hf a us rest hts hus⟩

end Faults

section Lists

variable {K : List Token → Prop} {L : Bool → List Token → Prop} {stop separator : String}
  {rounds : Nat} {reader : Parser Scan α}

theorem itemsFrom_faults {M : List Token → Prop} {done ts : List Token}
    (hl : ListLanguage K separator L) (hr : Covers K reader)
    (hi : Covers (L false) (items stop separator reader rounds false))
    (hM : ∀ us, L true us → M (done ++ us)) :
    Faults (itemsFrom stop separator reader rounds) done ts M := by
  refine .look ?_
  split
  · exact .pure _
  · refine .part hr (fun us hus => ⟨[], ?_⟩) fun x us rest _ hus => ?_
    · rw [List.append_nil]
      exact hM _ (by simpa using hl.item hus (hl.none false))
    · refine .part hi (fun vs hvs => ⟨[], ?_⟩) fun xs vs rest' _ _ => .pure _
      rw [List.append_nil, List.append_assoc]
      exact hM _ (hl.item hus hvs)

theorem items_covers (hl : ListLanguage K separator L) (hr : Covers K reader) (first : Bool) :
    Covers (L first) (items stop separator reader rounds first) := by
  have hyields (rounds : Nat) (first : Bool) (ts : List Token) :
      Yields (items stop separator reader rounds first) ts fun _ rest =>
        ∃ used, ts = used ++ rest ∧ L first used :=
    (items_yields hr.yields stop separator rounds first ts).mono fun xs rest h =>
      h.spans hl fun _ _ _ hx => hx
  induction rounds generalizing first with
  | zero =>
    exact ⟨hyields 0 first, fun ts => .exhausted⟩
  | succ rounds ih =>
    refine ⟨hyields (rounds + 1) first, fun ts => ?_⟩
    cases first with
    | true =>
      rw [items_first]
      refine .look ?_
      split
      · exact .pure _
      · exact itemsFrom_faults hl hr (ih false) fun us hus => hus
    | false =>
      rw [items_later]
      refine .look ?_
      split
      · exact .pure _
      · refine .mark (fun _ => ⟨[], hl.none false⟩) fun s rest _ hs => ?_
        exact itemsFrom_faults hl hr (ih false) fun us hus => hl.separator hs hus

end Lists

def word : Token := ⟨.identifier "a", .start⟩

def markToken (text : String) : Token := ⟨.punctuation text, .start⟩

theorem atom_word : Derives .atom [word] := .leaf rfl

theorem operand_word : Derives .operand [word] := .operand atom_word .omitted

theorem block_empty : Derives .block [markToken openBrace, markToken closeBrace] :=
  .block rfl (.noItems semicolon) rfl

def Between (start stop : String) (L : List Token → Prop) (ts : List Token) : Prop :=
  ∃ o us c, ts = o :: (us ++ [c]) ∧ o.lexeme = .punctuation start ∧ L us ∧
    c.lexeme = .punctuation stop

theorem Covers.mono {L L' : List Token → Prop} {p : Parser Scan α} (h : Covers L p)
    (hL : ∀ us, L us → L' us) : Covers L' p where
  yields ts := (h.yields ts).mono fun _ _ hu => by
    obtain ⟨used, hts, hused⟩ := hu
    exact ⟨used, hts, hL used hused⟩
  faults ts := .embed (h.faults ts) fun _ _ more _ hm _ => ⟨more, hL _ hm⟩

theorem Covers.andPure {L : List Token → Prop} {p : Parser Scan α} (h : Covers L p) (g : α → β) :
    Covers L (p >>= fun a => pure (g a)) where
  yields ts := .bind ((h.yields ts).mono fun _ _ hu => .pure hu)
  faults ts := .part h (fun us hus => ⟨[], by simpa using hus⟩) fun _ _ _ _ _ => .pure _

theorem delimited_covers {K : List Token → Prop} {L : Bool → List Token → Prop}
    {separator : String} {rounds : Nat} {reader : Parser Scan α} (start stop : String)
    (hl : ListLanguage K separator L) (hr : Covers K reader) :
    Covers (Between start stop (L true)) (delimited rounds start stop separator reader) where
  yields ts := (delimited_yields hr.yields start stop separator rounds ts).mono fun xs rest h => by
    obtain ⟨o, us, c, rfl, ho, hc, hlist⟩ := h
    obtain ⟨used, rfl, hused⟩ := hlist.spans hl fun _ _ _ hx => hx
    exact ⟨o :: (used ++ [c]), by simp, o, used, c, rfl, ho, hused, hc⟩
  faults ts := by
    refine .mark (fun _ => ⟨[markToken start, markToken stop], ?_⟩) fun o us _ ho => ?_
    · exact ⟨_, [], _, rfl, rfl, hl.none true, rfl⟩
    have hclose {us : List Token} (hus : L true us) :
        ∃ more, Between start stop (L true) ([o] ++ (us ++ more)) :=
      ⟨[markToken stop], o, us, _, rfl, ho, hus, rfl⟩
    refine .part (items_covers hl hr true) (fun us hus => hclose hus) fun xs us rest _ hus => ?_
    refine .mark (fun _ => ?_) fun c rest' _ _ => .pure _
    obtain ⟨more, hmore⟩ := hclose hus
    exact ⟨more, by rwa [List.append_assoc]⟩

structure Level.Covers (inner : Level Scan) : Prop where
  operand : Parser.Covers (Derives .operand) inner.operand
  expression : Parser.Covers (Derives .expression) inner.expression

section Level

variable {inner : Level Scan} {rounds : Nat}

theorem invocation_covers (hi : inner.Covers) (callee : Node) :
    Covers (Derives .optional) (invocation rounds inner.expression callee) := by
  have hargs : Covers (Derives .optional)
      (delimited rounds openParen closeParen comma inner.expression) :=
    (delimited_covers openParen closeParen (items_language comma) hi.expression).mono
      fun us h => by
        obtain ⟨o, vs, c, rfl, ho, hvs, hc⟩ := h
        exact .arguments ho hvs hc
  have hcall := hargs.andPure (Node.call callee)
  rw [invocation_eq]
  constructor
  · intro ts
    apply Yields.look
    split
    · exact hcall.yields ts
    · exact .pure ⟨[], rfl, .omitted⟩
  · intro ts
    refine .look ?_
    split
    · exact hcall.faults ts
    · exact .pure _

theorem block_covers (hi : inner.Covers) : Covers (Derives .block) (block rounds inner) := by
  have hlist : Covers (Between openBrace closeBrace (Items semicolon true))
      (delimited rounds openBrace closeBrace semicolon inner.expression) :=
    delimited_covers openBrace closeBrace (items_language semicolon) hi.expression
  refine (hlist.mono fun us h => ?_).andPure Node.sequence
  obtain ⟨o, vs, c, rfl, ho, hvs, hc⟩ := h
  exact .block ho hvs hc

theorem bindings_covers {operand : Parser Scan Node} (ho : Covers (Derives .operand) operand)
    (hy : ∀ ts, Yields operand ts fun n rest => Reads (.operand n) ts rest) (left : Node)
    (least : Int) : Covers (Derives .pairs) (bindings operand rounds left least) := by
  induction rounds generalizing left least with
  | zero =>
    exact ⟨fun ts => (bindings_yields hy left least ts).mono fun _ _ h => h.derived,
      fun ts => .exhausted⟩
  | succ rounds ih =>
    refine ⟨fun ts => (bindings_yields hy left least ts).mono fun _ _ h => h.derived, fun ts => ?_⟩
    rw [bindings_succ]
    refine .look ?_
    cases hop : operatorText? ts.head? with
    | none => exact .pure _
    | some op =>
      dsimp only
      cases hp : bindingPower? op with
      | none => exact .fail (by simp) fun _ => ⟨[], .noPairs⟩
      | some power =>
        dsimp only
        split
        · exact .pure _
        · obtain ⟨t, ht, hlex⟩ := operatorText?_some hop
          cases ts with
          | nil => cases ht
          | cons u ts =>
            obtain rfl : u = t := Option.some.inj ht
            have hpair {us vs : List Token} (hus : Derives .operand us) (hvs : Derives .pairs vs) :
                Derives .pairs ([] ++ [u] ++ us ++ vs) := by
              simpa using Derives.morePairs hlex (by simp [hp]) hus hvs
            refine .next (.part ho (fun us hus => ⟨[], by simpa using hpair hus .noPairs⟩) ?_)
            intro d us rest _ hus
            refine .part (ih d power) (fun vs hvs => ⟨[], by simpa using hpair hus hvs⟩) ?_
            intro right vs rest' _ hvs
            refine .embed ((ih _ least).faults rest') fun ws _ more _ hws _ => ⟨more, ?_⟩
            simpa using hpair hus (hvs.appendPairs hws)

theorem group_faults (hi : inner.Covers) (ts : List Token) :
    Faults (group inner) [] ts (Derives .atom) := by
  refine .mark (fun _ => ⟨[word], atom_word⟩) fun o us _ ho => ?_
  have hclose {us : List Token} (hus : Derives .expression us) :
      ∃ more, Derives .atom ([o] ++ (us ++ more)) := ⟨[markToken closeParen], .group ho hus rfl⟩
  refine .part hi.expression (fun us hus => hclose hus) fun n us rest _ hus => ?_
  refine .mark (fun _ => ?_) fun c rest' _ _ => .pure _
  obtain ⟨more, hmore⟩ := hclose hus
  exact ⟨more, by rwa [List.append_assoc]⟩

theorem signed_faults (hi : inner.Covers) (ts : List Token) :
    Faults (signed inner) [] ts (Derives .atom) := by
  rw [signed_eq]
  refine .expect (by simp) (fun _ => ⟨[word], atom_word⟩) fun s us _ hs => .look ?_
  have hword : Derives .atom [s, word] := .sign hs rfl operand_word
  split
  · next ht =>
    refine .bind (.embed (hi.operand.faults us) ?_) ((hi.operand.yields us).mono ?_)
    · intro used rest more hus hoperand _
      cases used with
      | nil => exact ⟨[word], hword⟩
      | cons t used =>
        rw [hus] at ht
        exact ⟨more, .sign hs ht hoperand⟩
    · intro n rest hn
      obtain ⟨used, hus, _⟩ := hn
      exact ⟨used, hus, .pure _⟩
  · exact .fail (by simp) fun _ => ⟨[word], hword⟩

theorem names_start {ts us : List Token} {names : List String} (h : Names (ts ++ us) names) :
    ∃ names', Names ts names' := by
  generalize hall : ts ++ us = all at h
  induction h generalizing ts with
  | none =>
    obtain ⟨rfl, _⟩ := List.append_eq_nil_iff.1 hall
    exact ⟨[], .none⟩
  | @last t name ht =>
    cases ts with
    | nil => exact ⟨[], .none⟩
    | cons u ts =>
      obtain ⟨rfl, hnil⟩ := List.cons.inj hall
      obtain ⟨rfl, _⟩ := List.append_eq_nil_iff.1 hnil
      exact ⟨[name], .last ht⟩
  | @more t c name all names ht hc _ ih =>
    match ts with
    | [] => exact ⟨[], .none⟩
    | [u] =>
      obtain ⟨rfl, _⟩ := List.cons.inj hall
      exact ⟨[name], .last ht⟩
    | u :: v :: ts =>
      obtain ⟨rfl, htail⟩ := List.cons.inj hall
      obtain ⟨rfl, hrest⟩ := List.cons.inj htail
      obtain ⟨names', hnames⟩ := ih hrest
      exact ⟨name :: names', .more ht hc hnames⟩

theorem identifiers_language :
    ListLanguage (fun ts => ∃ t name, ts = [t] ∧ t.lexeme = .identifier name) comma
      fun first ts => ∃ names, NamesFrom first ts names where
  none first := by
    cases first with
    | true => exact ⟨[], .none⟩
    | false => exact ⟨[], .inl ⟨rfl, rfl⟩⟩
  item {ts us} ht hu := by
    obtain ⟨t, name, rfl, ht⟩ := ht
    obtain ⟨names, hnames⟩ := hu
    exact ⟨name :: names, hnames.cons ht⟩
  separator hs hu := by
    obtain ⟨names, hnames⟩ := hu
    exact ⟨names, .inr ⟨_, _, rfl, hs, hnames⟩⟩

theorem identifier_covers :
    Covers (fun ts => ∃ t name, ts = [t] ∧ t.lexeme = .identifier name) expectIdentifier where
  yields ts := (identifier_yields ts).mono fun t rest ht => by
    obtain ⟨rfl, hk⟩ := ht
    obtain ⟨name, hname⟩ := identifier_of_kind hk
    exact ⟨[t], rfl, t, name, rfl, hname⟩
  faults ts := .token (by simp) fun _ => ⟨[word], word, "a", rfl, rfl⟩

theorem title_covers : Covers OptionalName (name? : Parser Scan (Option String)) where
  yields ts := name?_yields.mono fun _ _ h => optionalName_of_named h
  faults ts := by
    rw [name?_eq]
    refine .look ?_
    split
    · exact .expect (by simp) (fun _ => ⟨[], .none⟩) fun _ _ _ _ => .pure _
    · exact .pure _

theorem rule_of_header {r o : Token} {title params : List Token} {names : List String}
    (hr : r.lexeme = .keyword ruleWord) (htitle : OptionalName title)
    (ho : o.lexeme = .punctuation openParen) (hp : Names params names) (hn : names.Nodup) :
    ∃ more, Derives .atom (r :: (title ++ o :: (params ++ more))) :=
  ⟨_, .rule hr htitle ho hp hn (c := markToken closeParen) rfl block_empty⟩

theorem rule_of_noRepeat {r o : Token} {title params : List Token} {names : List String}
    (hr : r.lexeme = .keyword ruleWord) (htitle : OptionalName title)
    (ho : o.lexeme = .punctuation openParen) (hp : Names params names)
    (hn : NoRepeat (r :: title ++ [o] ++ params)) :
    ∃ more, Derives .atom (r :: title ++ [o] ++ params ++ more) := by
  have hsplit : r :: title ++ [o] ++ params = r :: (title ++ o :: params) := by simp
  rw [hsplit] at hn ⊢
  obtain ⟨more, hmore⟩ := rule_of_header hr htitle ho hp (hn.nodup hr htitle ho hp)
  exact ⟨more, by simpa using hmore⟩

theorem firstRepeated?_some {earlier : List (Option String)} {ts : List Token} {t : Token}
    (h : firstRepeated? earlier ts = some t) :
    ∃ us vs, ts = us ++ t :: vs ∧
      (t.lexeme.text? ∈ earlier ∨ ∃ u ∈ us, u.lexeme.text? = t.lexeme.text?) := by
  induction ts generalizing earlier with
  | nil => cases h
  | cons u ts ih =>
    simp only [firstRepeated?] at h
    split at h
    · next hu =>
      obtain rfl := Option.some.inj h
      exact ⟨[], ts, rfl, .inl hu⟩
    · obtain ⟨us, vs, rfl, ht⟩ := ih h
      refine ⟨u :: us, vs, rfl, ?_⟩
      rcases ht with ht | ⟨x, hx, hxt⟩
      · rcases List.mem_append.1 ht with ht | ht
        · exact .inl ht
        · exact .inr ⟨u, List.mem_cons_self .., (List.mem_singleton.1 ht).symm⟩
      · exact .inr ⟨x, List.mem_cons_of_mem u hx, hxt⟩

theorem repeated_in {params used us vs : List Token} {t u : Token}
    (hp : params = us ++ t :: vs) (hs : params.Sublist used) (hu : u ∈ us) :
    ∃ us' vs', used = us' ++ t :: vs' ∧ u ∈ us' := by
  rw [hp] at hs
  obtain ⟨xs, ys, rfl, hxs, hys⟩ := List.append_sublist_iff.1 hs
  obtain ⟨ws, zs, rfl, ht, _⟩ := List.cons_sublist_iff.1 hys
  obtain ⟨as, bs, rfl⟩ := List.append_of_mem ht
  exact ⟨xs ++ as, bs ++ zs, by simp, List.mem_append_left as (hxs.mem hu)⟩

theorem declared_faults {L : List Token → Prop} {r o c : Token}
    {title params used : List Token} {names : List String} (hr : r.lexeme = .keyword ruleWord)
    (htitle : OptionalName title) (ho : o.lexeme = .punctuation openParen)
    (hnames : Names used names) (hc : c.lexeme = .punctuation closeParen)
    (hmap : params.map (·.lexeme) = names.map .identifier) (hsub : params.Sublist used)
    (ts : List Token) : Faults (declared params) (r :: (title ++ o :: (used ++ [c]))) ts L := by
  have hident {t : Token} (ht : t ∈ params) : ∃ a, t.lexeme = .identifier a := by
    have hmem : t.lexeme ∈ params.map (·.lexeme) := List.mem_map_of_mem ht
    rw [hmap] at hmem
    obtain ⟨a, _, ha⟩ := List.mem_map.1 hmem
    exact ⟨a, ha.symm⟩
  rw [declared]
  cases hf : firstRepeated? [] params with
  | none => exact .pure _
  | some t =>
    intro stop e s h
    obtain ⟨rfl, rfl⟩ := EStateM.Result.error.inj h
    obtain ⟨us, vs, hparams, hearlier⟩ := firstRepeated?_some hf
    obtain ⟨u, hu, htext⟩ := hearlier.resolve_left List.not_mem_nil
    obtain ⟨a, ht⟩ := hident (t := t) (by simp [hparams])
    obtain ⟨b, hub⟩ := hident (t := u) (by simp [hparams, hu])
    obtain rfl : b = a := by
      rw [hub, ht] at htext
      exact Option.some.inj htext
    obtain ⟨us', vs', rfl, hu'⟩ := repeated_in hparams hsub hu
    refine .inr (.inr ⟨[], ts, rfl, rfl, .inl ?_⟩)
    rw [List.append_nil, ht, ← List.nil_append (r :: _)]
    exact .intro hr htitle ho hnames hc hu' hub ht

theorem parameters_faults {r : Token} {title : List Token} (hr : r.lexeme = .keyword ruleWord)
    (htitle : OptionalName title) (ts : List Token) :
    Faults (parameters rounds) (r :: title) ts (Derives .atom) := by
  rw [parameters_eq]
  have hopen : ∃ more, Derives .atom (r :: title ++ more) := by
    obtain ⟨more, hmore⟩ := rule_of_header hr htitle (o := markToken openParen) rfl .none .nil
    exact ⟨_, hmore⟩
  refine .look ?_
  split
  · rw [delimited_bind]
    refine .mark (fun _ => hopen) fun o us _ ho => ?_
    have hitems : Faults (items closeParen comma expectIdentifier rounds true) [] us
        fun ts => ∃ names, Names ts names :=
      (items_covers identifiers_language identifier_covers true).faults us
    have hlist := items_yields identifier_yields closeParen comma rounds true us
    refine .bind (.embed hitems fun used rest more _ hused hn => ?_)
      (hlist.mono fun params rest h => ?_)
    · obtain ⟨names, hnames⟩ := hused
      obtain ⟨names', hnames'⟩ := names_start hnames
      obtain ⟨more', hmore⟩ := rule_of_noRepeat hr htitle ho hnames' hn
      exact ⟨more', by simpa using hmore⟩
    · obtain ⟨used, names, hus, hmap, hsub, hnames⟩ := names_of_listed h
      refine ⟨used, hus, .mark (rule_of_noRepeat hr htitle ho hnames) fun c rest' _ hc => ?_⟩
      simpa using declared_faults hr htitle ho hnames hc hmap hsub rest'
  · exact .fail (by simp) fun _ => hopen

theorem declaration_faults (hi : inner.Covers) {r : Token} (hr : r.lexeme = .keyword ruleWord)
    (ts : List Token) : Faults (declaration rounds inner) [] (r :: ts) (Derives .atom) := by
  rw [declaration_eq]
  refine .next (.part title_covers (fun title htitle => ?_) fun name title mid _ htitle => ?_)
  · obtain ⟨more, hmore⟩ := rule_of_header hr htitle (o := markToken openParen) rfl .none .nil
    exact ⟨_, hmore⟩
  · refine .bind (parameters_faults hr htitle mid) (parameters_yields.mono ?_)
    intro names rest hparams
    obtain ⟨o, us, c, params, rfl, ho, hc, rfl, hf, hlist⟩ := hparams
    obtain ⟨used, names, rfl, hmap, _, hnames⟩ := names_of_listed hlist
    have hrule {body : List Token} (hbody : Derives .block body) :
        Derives .atom ([] ++ [r] ++ title ++ (o :: (used ++ [c])) ++ body) := by
      simpa using Derives.rule hr htitle ho hnames ((nodup_names hmap).1 hf) hc hbody
    refine ⟨o :: (used ++ [c]), by simp, .look ?_⟩
    split
    · refine .part (block_covers hi) (fun body hbody => ⟨[], ?_⟩) fun _ _ _ _ _ => .pure _
      simpa using hrule hbody
    · exact .fail (by simp) fun _ => ⟨_, hrule block_empty⟩

theorem atom_covers (hy : inner.Yields) (hi : inner.Covers) :
    Covers (Derives .atom) (atom rounds inner) where
  yields ts := (atom_yields hy).mono fun _ _ h => h.derived
  faults ts := by
    refine .look ?_
    cases ts with
    | nil => exact .unexpected fun _ => ⟨[word], atom_word⟩
    | cons t ts =>
      have hx := opening_spec t.lexeme
      dsimp only [List.head?_cons]
      generalize Opening.of t.lexeme = opening at hx
      cases opening with
      | group => exact group_faults hi _
      | braces => exact ((block_covers hi).mono fun _ h => .braces h).faults _
      | declaration => exact declaration_faults hi hx ts
      | sign => exact signed_faults hi _
      | truth value => exact .next (.pure _)
      | leaf => exact .next (.pure _)
      | none => exact .unexpected fun _ => ⟨[word], atom_word⟩

theorem operand_covers (hy : inner.Yields) (hi : inner.Covers) :
    Covers (Derives .operand) (operand rounds inner) where
  yields ts := (operand_yields hy).mono fun _ _ h => h.derived
  faults ts := by
    refine .part (atom_covers hy hi) (fun us hus => ⟨[], ?_⟩) ?_
    · simpa using Derives.operand hus .omitted
    intro a us rest _ hus
    exact .embed ((invocation_covers hi a).faults rest) fun vs _ more _ hvs _ =>
      ⟨more, .operand hus hvs⟩

theorem level_covers (rounds depth : Nat) : (level rounds depth).Covers := by
  induction depth with
  | zero =>
    have htooDeep (L : List Token → Prop) :
        Covers L (Parser.fail .nestingTooDeep : Parser Scan Node) := by
      refine ⟨fun ts => .fail _, fun ts stop e s h => ?_⟩
      obtain ⟨rfl, _⟩ := EStateM.Result.error.inj h
      exact .inr (.inl rfl)
    exact ⟨htooDeep _, htooDeep _⟩
  | succ depth ih =>
    have hy := level_yields rounds depth
    have ho : Covers (Derives .operand) (operand rounds (level rounds depth)) :=
      operand_covers hy ih
    refine ⟨ho, ⟨fun ts => ?_, fun ts => ?_⟩⟩
    · exact ((level_yields rounds (depth + 1)).expression ts).mono fun _ _ h => h.derived
    · have hexpression {us vs ws : List Token} (hus : Derives .operand us)
          (hvs : Derives .pairs vs) (hws : Derives .optional ws) :
          Derives .expression ([] ++ us ++ vs ++ ws) := by
        simpa using Derives.expression hus hvs hws
      refine .part ho (fun us hus => ⟨[], by simpa using hexpression hus .noPairs .omitted⟩) ?_
      intro d us rest _ hus
      refine .part (bindings_covers ho (fun ts => operand_yields hy) d 0)
        (fun vs hvs => ⟨[], by simpa using hexpression hus hvs .omitted⟩) ?_
      intro c vs rest' _ hvs
      refine .embed ((invocation_covers ih c).faults rest') fun ws _ more _ hws _ => ⟨more, ?_⟩
      exact hexpression hus hvs hws

theorem statements_faults (hy : inner.Yields) (hi : inner.Covers) (rounds : Nat)
    (ts : List Token) :
    Faults (statements inner.expression rounds) [] ts (Derives (.list semicolon)) := by
  induction rounds generalizing ts with
  | zero => exact .exhausted
  | succ rounds ih =>
    rw [statements_succ]
    refine .look ?_
    split
    · exact .pure _
    · refine .part hi.expression (fun us hus => ⟨[], ?_⟩) fun n us rest _ hus => .look ?_
      · simpa using Derives.lastItem hus
      -- the rest of the program, behind an item or behind the separator after it
      have hrest {done ts : List Token} (hL : ∀ used rest more, ts = used ++ rest →
          Derives (.list semicolon) (used ++ more) →
          ∃ more', Derives (.list semicolon) (done ++ (used ++ more'))) :
          Faults (do
            let nodes ← statements inner.expression rounds
            return n :: nodes) done ts (Derives (.list semicolon)) := by
        refine .bind (.embed (ih ts) fun used rest more hts hm _ => hL used rest more hts hm) ?_
        exact (statements_yields hy rounds ts).mono fun ns rest hns =>
          ⟨ts, by rw [hns.1, List.append_nil], .pure _⟩
      cases rest with
      | nil =>
        refine hrest fun used rest more hnil _ => ⟨[], ?_⟩
        obtain ⟨rfl, _⟩ := List.append_eq_nil_iff.1 hnil.symm
        simpa using Derives.lastItem hus
      | cons s rest =>
        refine .mark (fun _ => ⟨[], by simpa using Derives.lastItem hus⟩) fun s rest' _ hs => ?_
        refine hrest fun vs _ more _ hvs => ⟨more, ?_⟩
        simpa using Derives.moreItems hus hs hvs

end Level

theorem program_stuck {limit : Nat} {ts : List Token} {stop : Position} {f : Failure} {left : Scan}
    (h : program limit (Scan.ofTokens ts stop) = .error f left) (hd : ¬ f.IsTooDeep) :
    ∃ used rest, ts = used ++ rest ∧ Stuck (Derives .program) f used ∧
      (¬ f.IsDuplicate → ∃ x, f = .malformed ⟨(Scan.ofTokens rest stop).here, x⟩) ∧
      ∀ other : Scan, other.failure ≠ some .exhausted →
        SameHead rest other.tokens ∨ f.IsDuplicate →
        program limit (other.behind used) = .error f other := by
  have hfine := Scan.failure_ofTokens ts stop
  obtain ⟨used, hts, hx, hreplay⟩ := program_replay (hfine _) h hd (hfine f)
  have hstuck := statements_faults (level_yields _ limit) (level_covers _ limit) _ ts stop f left h
  obtain ⟨used', rest, rfl, rfl, hs⟩ :=
    (hstuck.resolve_left fun he => program_not_exhausted (hfine _) limit (he ▸ h)).resolve_left hd
  obtain rfl : used' = used := List.append_cancel_right (congrArg Scan.tokens hts)
  refine ⟨used', rest, rfl, ?_, fun hdup => ?_, hreplay⟩
  · refine hs.imp_right fun hs => ⟨hs.1, fun hn => ?_⟩
    obtain ⟨more, hmore⟩ := hs.2 hn
    exact ⟨more, .program hmore⟩
  · cases hx with
    | exhausted => exact absurd h (program_not_exhausted (hfine _) limit)
    | tooDeep p => exact absurd rfl hd
    | lexical he => cases he
    | refused hc hl => exact ⟨_, rfl⟩
    | repeated a => exact absurd ⟨a, rfl⟩ hdup

end Parser

theorem parse_error_behind {source : List Char} {used more : List Token} {f : Failure}
    (hd : ¬ f.IsTooDeep) (htokens : (Scan.ofChars source).tokens = used ++ more)
    (h : ∀ other : Scan, other.failure ≠ some .exhausted → other.tokens = more →
      program nestingLimit (other.behind used) = .error f other) : parse source = .error f := by
  have hbehind : Scan.ofChars source = Scan.behind used
      ⟨more, (Scan.ofChars source).stop, (Scan.ofChars source).failure⟩ := by
    rw [Scan.behind, ← htokens]
  rw [(parse_agree source).error_iff hd, hbehind]
  exact Scan.parse_error.2 ⟨_, h _ (Scan.failure_ofChars source) rfl⟩

instance Failure.decidableError {α : Type} (x : Except Failure α) (f : Failure) :
    Decidable (x = .error f) :=
  match x with
  | .error e => decidable_of_iff (e = f) (by simp)
  | .ok _ => .isFalse nofun

/-- Errors come first. A text that is refused is refused at its end or at a token with which no
program goes on, behind tokens that some program begins with, and every text that begins alike is
refused alike. What is refused for a parameter declared twice is refused once the list ends. -/
theorem parse_error_first {source : List Char} {ts : List Token} {f : Failure}
    (ht : tokenize source = .ok ts) (hf : parse source = .error f) (hd : ¬ f.IsTooDeep) :
    (¬ f.IsDuplicate → ∃ used rest x, ts = used ++ rest ∧
      f = .malformed ⟨(Scan.ofTokens rest (Position.start.afterAll source)).here, x⟩ ∧
      (NoRepeat used → ∃ more, Derives .program (used ++ more)) ∧
      ∀ t rest', rest = t :: rest' → (∀ more, ¬ Derives .program (used ++ t :: more)) ∧
        ∀ source', (used ++ [t]) <+: (Scan.ofChars source').tokens → parse source' = .error f) ∧
    (f.IsDuplicate → ∃ used rest, ts = used ++ rest ∧ Repeats f used ∧
      ∀ source', used <+: (Scan.ofChars source').tokens → parse source' = .error f) := by
  have hs := ((parse_agree source).error_iff hd).1 hf
  rw [ofChars_of_tokenize ht] at hs
  obtain ⟨left, hleft⟩ := Scan.parse_error.1 hs
  obtain ⟨used, rest, rfl, hstuck, hx, hreplay⟩ := program_stuck hleft hd
  -- every text is refused alike that has the tokens taken and then the same one, if it counts
  have hstable {source' : List Char} {more : List Token}
      (htokens : (Scan.ofChars source').tokens = used ++ more)
      (hsame : SameHead rest more ∨ f.IsDuplicate) : parse source' = .error f :=
    parse_error_behind hd htokens fun other hother hmore => hreplay other hother (hmore ▸ hsame)
  have hsame {t : Token} {rest' : List Token} (hrest : rest = t :: rest') (more : List Token) :
      SameHead rest (t :: more) := ⟨t, by rw [hrest, List.head?_cons], rfl⟩
  refine ⟨fun hdup => ?_, fun hdup => ⟨used, rest, rfl, ?_, fun source' hprefix => ?_⟩⟩
  · obtain ⟨x, hx⟩ := hx hdup
    have hviable := (hstuck.resolve_left fun hr => hdup hr.duplicate).2
    refine ⟨used, rest, x, rfl, hx, hviable, fun t rest' hrest => ⟨fun more hmore => ?_, ?_⟩⟩
    · have hrun : program nestingLimit (Scan.ofTokens (used ++ t :: more) .start) = .error f _ :=
        hreplay (.ofTokens (t :: more) .start) (Scan.failure_ofTokens _ _ _)
          (.inl (hsame hrest more))
      exact not_derived hrun hd hmore
    · intro source' hprefix
      obtain ⟨more, hmore⟩ := hprefix
      exact hstable (by rw [← hmore, List.append_assoc]; rfl) (.inl (hsame hrest more))
  · exact hstuck.resolve_right fun h => h.1 hdup
  · obtain ⟨more, hmore⟩ := hprefix
    exact hstable hmore.symm (.inr hdup)

theorem parse_error_first_names :
    (∀ source', [⟨.identifier "a", ⟨1, 0⟩⟩, ⟨.identifier "b", ⟨1, 2⟩⟩] <+:
        (Scan.ofChars source').tokens →
      parse source' = .error (.malformed ⟨⟨1, 2⟩, .expectedPunctuation ";"⟩)) ∧
    (∀ source', [⟨.keyword "rule", ⟨1, 0⟩⟩, ⟨.punctuation "(", ⟨1, 4⟩⟩, ⟨.identifier "a", ⟨1, 5⟩⟩,
        ⟨.punctuation ",", ⟨1, 6⟩⟩, ⟨.identifier "a", ⟨1, 7⟩⟩, ⟨.punctuation ")", ⟨1, 8⟩⟩] <+:
        (Scan.ofChars source').tokens →
      parse source' = .error (.malformed ⟨⟨1, 7⟩, .duplicateParameter "a"⟩)) := by
  constructor
  · intro source' hprefix
    have ht : tokenize ['a', ' ', 'b'] =
      .ok [⟨.identifier "a", ⟨1, 0⟩⟩, ⟨.identifier "b", ⟨1, 2⟩⟩] := rfl
    have hf : parse ['a', ' ', 'b'] =
      .error (.malformed ⟨⟨1, 2⟩, .expectedPunctuation ";"⟩) := by decide +kernel
    obtain ⟨used, rest, x, hts, hplace, _, hstable⟩ :=
      (parse_error_first ht hf nofun).1 fun h => by cases h.choose_spec
    cases rest with
    | nil => cases hplace
    | cons t rest =>
      refine (hstable t rest rfl).2 source' (List.IsPrefix.trans ⟨rest, ?_⟩ hprefix)
      rw [List.append_assoc]
      exact hts.symm
  · intro source' hprefix
    have ht : tokenize ['r', 'u', 'l', 'e', '(', 'a', ',', 'a', ')'] = .ok _ := rfl
    have hf : parse ['r', 'u', 'l', 'e', '(', 'a', ',', 'a', ')'] =
      .error (.malformed ⟨⟨1, 7⟩, .duplicateParameter "a"⟩) := by decide +kernel
    obtain ⟨used, rest, hts, _, hstable⟩ := (parse_error_first ht hf nofun).2 ⟨"a", rfl⟩
    exact hstable source' (List.IsPrefix.trans ⟨rest, hts.symm⟩ hprefix)

end RuleLang
