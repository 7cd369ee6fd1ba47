import Mathlib.Data.List.Basic
import RuleLang.Proofs.JsonNumerals
import RuleLang.Proofs.JsonTexts
import RuleLang.Proofs.Leaves

/-!
Renderings tell trees apart. Every piece of a rendering ends by itself: of two texts that begin
with pieces of one kind, equal texts have equal pieces and the same rest. A quoted text ends at its
quote, since an escape is read back with its own length; the name of a class ends at the
parenthesis, a number at the one behind it, and a sequence at a parenthesis where an item would
begin. So a rendering is read piece by piece, and a tree is told by it up to its places.
-/
namespace RuleLang

/-- A text that ends by itself: what begins with it and with another text of its kind has the same
key in both, and the same rest behind them. -/
def EndsItself {α β : Type} (write : α → String) (key : α → β) (a : α) : Prop :=
  ∀ ⦃b : α⦄ ⦃x y : List Char⦄,
    (write a).toList ++ x = (write b).toList ++ y → key a = key b ∧ x = y

theorem ends_at {stop : Char} {u v x y : List Char} (hu : stop ∉ u) (hv : stop ∉ v)
    (h : u ++ stop :: x = v ++ stop :: y) : u = v ∧ x = y := by
  have hspan (w z : List Char) (hw : stop ∉ w) :
      (w ++ stop :: z).takeWhile (· ≠ stop) = w ∧
        (w ++ stop :: z).dropWhile (· ≠ stop) = stop :: z := by
    refine Lexer.span_run w (List.all_eq_true.2 fun c hc => ?_) (stop :: z) (by simp)
    exact decide_eq_true fun heq => hw (heq ▸ hc)
  obtain ⟨htake, hdrop⟩ := hspan u x hu
  obtain ⟨htake', hdrop'⟩ := hspan v y hv
  rw [h] at htake hdrop
  exact ⟨htake.symm.trans htake', List.cons_injective (hdrop.symm.trans hdrop')⟩

namespace Text

def Hex.value (cs : List Char) : Nat :=
  cs.foldl (fun n c => 16 * n + (Json.hexValue? c).getD 0) 0

theorem Hex.value_fixed (width n : Nat) : value (fixed width n) = n % 16 ^ width := by
  induction width generalizing n with
  | zero => rw [Nat.pow_zero, Nat.mod_one]; rfl
  | succ width ih =>
    have hdigit := Json.hexValue?_digit (Nat.mod_lt n (by decide : 0 < 16))
    have happend : value (fixed width (n / 16) ++ [digit (n % 16)]) =
        16 * value (fixed width (n / 16)) + n % 16 := by
      simp [value, List.foldl_append, hdigit]
    rw [fixed, happend, ih, Nat.pow_succ', Nat.mod_mul, Nat.add_comm]

theorem Hex.take_fixed {width n : Nat} (h : n < 16 ^ width) (rest : List Char) :
    value ((fixed width n ++ rest).take width) = n ∧ (fixed width n ++ rest).drop width = rest := by
  have hlength := length_fixed width n
  constructor
  · rw [List.take_left' hlength, value_fixed, Nat.mod_eq_of_lt h]
  · exact List.drop_left' hlength

def character? : List Char → Option (Char × List Char)
  | '\\' :: 'x' :: rest => some (Char.ofNat (Hex.value (rest.take 2)), rest.drop 2)
  | '\\' :: 'u' :: rest => some (Char.ofNat (Hex.value (rest.take 4)), rest.drop 4)
  | '\\' :: 'U' :: rest => some (Char.ofNat (Hex.value (rest.take 8)), rest.drop 8)
  | '\\' :: 'n' :: rest => some ('\n', rest)
  | '\\' :: 'r' :: rest => some ('\r', rest)
  | '\\' :: 't' :: rest => some ('\t', rest)
  | '\\' :: c :: rest => some (c, rest)
  | c :: rest => some (c, rest)
  | [] => none

theorem character?_plain {c : Char} (h : c ≠ '\\') (rest : List Char) :
    character? (c :: rest) = some (c, rest) := by
  unfold character?
  split <;> simp_all

theorem quoteFor_cases (cs : List Char) : quoteFor cs = apostrophe ∨ quoteFor cs = '"' := by
  unfold quoteFor
  split_ifs
  · exact .inr rfl
  · exact .inl rfl

variable {quote : Char}

theorem character?_escaped (hq : quote = apostrophe ∨ quote = '"') (c : Char) (rest : List Char) :
    character? (escaped quote c ++ rest) = some (c, rest) := by
  have hvalid : c.toNat < 0x110000 := by
    have h : c.toNat.isValidChar := c.valid
    unfold Nat.isValidChar at h
    omega
  have hhex {width : Nat} (h : c.toNat < 16 ^ width) :
      (Char.ofNat (Hex.value ((Hex.fixed width c.toNat ++ rest).take width)),
        (Hex.fixed width c.toNat ++ rest).drop width) = (c, rest) := by
    obtain ⟨hvalue, hrest⟩ := Hex.take_fixed h rest
    rw [hvalue, hrest, Char.ofNat_toNat]
  unfold escaped
  split_ifs with hmark hn hr ht hplain hx hu
  · rcases hmark with rfl | rfl
    · rcases hq with rfl | rfl <;> rfl
    · rfl
  · subst hn; rfl
  · subst hr; rfl
  · subst ht; rfl
  · exact character?_plain (not_or.1 hmark).2 rest
  · exact congrArg some (hhex hx)
  · exact congrArg some (hhex hu)
  · exact congrArg some (hhex (by omega))

theorem escaped_head (hq : quote = apostrophe ∨ quote = '"') (c : Char) :
    ∃ x xs, escaped quote c = x :: xs ∧ x ≠ quote := by
  have hmark : '\\' ≠ quote := by
    rcases hq with rfl | rfl <;> decide
  unfold escaped
  split_ifs with hc
  iterate 4 exact ⟨_, _, rfl, hmark⟩
  · exact ⟨_, _, rfl, (not_or.1 hc).1⟩
  iterate 3 exact ⟨_, _, rfl, hmark⟩

theorem body_ends (hq : quote = apostrophe ∨ quote = '"') {cs ds x y : List Char}
    (h : cs.flatMap (escaped quote) ++ quote :: x = ds.flatMap (escaped quote) ++ quote :: y) :
    cs = ds ∧ x = y := by
  induction cs generalizing ds with
  | nil =>
    cases ds with
    | nil => exact ⟨rfl, List.cons_injective h⟩
    | cons d ds =>
      obtain ⟨e, es, he, hne⟩ := escaped_head hq d
      rw [List.flatMap_cons, he] at h
      exact absurd (List.cons.inj h).1.symm hne
  | cons c cs ih =>
    cases ds with
    | nil =>
      obtain ⟨e, es, he, hne⟩ := escaped_head hq c
      rw [List.flatMap_cons, he] at h
      exact absurd (List.cons.inj h).1 hne
    | cons d ds =>
      rw [List.flatMap_cons, List.flatMap_cons, List.append_assoc, List.append_assoc] at h
      have hread := congrArg character? h
      rw [character?_escaped hq, character?_escaped hq] at hread
      obtain ⟨rfl, hrest⟩ := Prod.mk.inj (Option.some.inj hread)
      obtain ⟨rfl, hxy⟩ := ih hrest
      exact ⟨rfl, hxy⟩

theorem toList_quoted (s : String) (rest : List Char) :
    (quoted s).toList ++ rest =
      quoteFor s.toList :: (s.toList.flatMap (escaped (quoteFor s.toList)) ++
        quoteFor s.toList :: rest) := by
  simp [quoted, quotedChars]

theorem quoted_ends (s : String) : EndsItself quoted id s := by
  intro t x y h
  rw [toList_quoted, toList_quoted] at h
  obtain ⟨hquote, hbody⟩ := List.cons.inj h
  rw [← hquote] at hbody
  obtain ⟨hst, hxy⟩ := body_ends (quoteFor_cases _) hbody
  exact ⟨String.toList_inj.1 hst, hxy⟩

theorem quoted_start (s : String) :
    ∃ cs, (quoted s).toList = quoteFor s.toList :: cs := by
  have h := toList_quoted s []
  rw [List.append_nil] at h
  exact ⟨_, h⟩

theorem quoteFor_ne (cs : List Char) {c : Char} (hc : c ≠ apostrophe ∧ c ≠ '"') :
    quoteFor cs ≠ c := by
  rcases quoteFor_cases cs with hq | hq
  · rw [hq]; exact hc.1.symm
  · rw [hq]; exact hc.2.symm

end Text

namespace Number

/-- The number that is written so. -/
def ofWritten? (cs : List Char) : Option Number :=
  if cs = "inf".toList then some (infinite false)
  else if cs = "-inf".toList then some (infinite true)
  else Json.number? cs

theorem ofWritten?_text (x : Number) : ofWritten? x.text.toList = some x := by
  cases x with
  | infinite negative => cases negative <;> rfl
  | finite negative m =>
    have hread : Json.number? (finite negative m).text.toList = some (finite negative m) :=
      Json.number?_numeral (finite negative m)
    -- The names of the infinities are no numerals.
    have hname {name : String} (hn : Json.number? name.toList = none) :
        (finite negative m).text.toList ≠ name.toList := by
      intro h
      rw [h, hn] at hread
      cases hread
    rw [ofWritten?, if_neg (hname rfl), if_neg (hname rfl), hread]

theorem text_word (x : Number) : x.text.toList.all Json.isWordChar := by
  cases x with
  | infinite negative => cases negative <;> rfl
  | finite negative m => exact Json.numeral_word (finite negative m)

theorem text_ends {a b : Number} {x y : List Char}
    (h : a.text.toList ++ ')' :: x = b.text.toList ++ ')' :: y) : a = b ∧ x = y := by
  have hword (n : Number) : ')' ∉ n.text.toList := fun hmem =>
    absurd (List.all_eq_true.1 n.text_word _ hmem) (by decide)
  obtain ⟨htext, hxy⟩ := ends_at (hword a) (hword b) h
  have hread := congrArg ofWritten? htext
  rw [ofWritten?_text, ofWritten?_text] at hread
  exact ⟨Option.some.inj hread, hxy⟩

end Number

namespace Kind

theorem comma_notMem_name (k : Kind) : ',' ∉ k.name.toList := by
  cases k <;> decide

theorem name_inj {k l : Kind} (h : k.name = l.name) : k = l := by
  have hk := ofName?_name k
  rw [h, ofName?_name] at hk
  exact (Option.some.inj hk).symm

end Kind

namespace Lexeme

theorem toList_render (l : Lexeme) (rest : List Char) :
    l.render.toList ++ rest =
      "Token".toList ++
        '(' :: (l.kind.name.toList ++ ',' :: ' ' :: (l.valueText.toList ++ ')' :: rest)) := by
  simp [render]

theorem valueText_ends {l m : Lexeme} (hk : l.kind = m.kind) {x y : List Char}
    (h : l.valueText.toList ++ ')' :: x = m.valueText.toList ++ ')' :: y) : l = m ∧ x = y := by
  have htext {s t : String}
      (h : (Text.quoted s).toList ++ ')' :: x = (Text.quoted t).toList ++ ')' :: y) :
      s = t ∧ x = y := by
    obtain ⟨hst, hxy⟩ := Text.quoted_ends s h
    exact ⟨hst, List.cons_injective hxy⟩
  -- A number has no end of its own: it takes the parenthesis behind it to tell 1.0 from 1.05.
  cases l with
  | number a =>
    cases m with
    | number b =>
      obtain ⟨rfl, hxy⟩ := Number.text_ends h
      exact ⟨rfl, hxy⟩
    | _ => cases hk
  | _ =>
    cases m <;> cases hk
    obtain ⟨rfl, hxy⟩ := htext h
    exact ⟨rfl, hxy⟩

theorem render_ends (l : Lexeme) : EndsItself render id l := by
  intro m x y h
  rw [toList_render, toList_render, List.append_cancel_left_eq] at h
  obtain ⟨hname, hvalue⟩ := ends_at (Kind.comma_notMem_name _) (Kind.comma_notMem_name _)
    (List.cons_injective h)
  exact valueText_ends (Kind.name_inj (String.toList_inj.1 hname)) (List.cons_injective hvalue)

end Lexeme

namespace Node

def closing (items : List String) (rest : List Char) : List Char :=
  items.foldr (fun item behind => ',' :: ' ' :: (item.toList ++ behind)) (')' :: rest)

theorem toList_intercalate (item : String) (items : List String) (rest : List Char) :
    (", ".intercalate (item :: items)).toList ++ ')' :: rest =
      item.toList ++ closing items rest := by
  induction items generalizing item with
  | nil => simp [closing]
  | cons next items ih =>
    have hnext := ih next
    rw [String.toList_intercalate, List.map_cons] at hnext
    rw [String.toList_intercalate, List.map_cons, List.map_cons, List.intercalate_cons_cons]
    simpa [closing] using hnext

section Sequences

variable {α β : Type} {write : α → String} {key : α → β}

theorem closing_ends {as bs : List α} (h : ∀ a ∈ as, EndsItself write key a) {x y : List Char}
    (heq : closing (as.map write) x = closing (bs.map write) y) :
    as.map key = bs.map key ∧ x = y := by
  induction as generalizing bs with
  | nil =>
    cases bs with
    | nil => exact ⟨rfl, List.cons_injective heq⟩
    | cons b bs => exact absurd (List.cons.inj heq).1 (by decide)
  | cons a as ih =>
    cases bs with
    | nil => exact absurd (List.cons.inj heq).1 (by decide)
    | cons b bs =>
      obtain ⟨ha, has⟩ := List.forall_mem_cons.1 h
      obtain ⟨hkey, hbehind⟩ := ha (List.cons_injective (List.cons_injective heq))
      obtain ⟨hkeys, hxy⟩ := ih has hbehind
      exact ⟨by rw [List.map_cons, List.map_cons, hkey, hkeys], hxy⟩

def tupleRest : List String → List Char → List Char
  | [], rest => ',' :: ')' :: rest
  | items, rest => closing items rest

theorem toList_tuple (item : String) (items : List String) (rest : List Char) :
    (tuple (item :: items)).toList ++ rest = '(' :: (item.toList ++ tupleRest items rest) := by
  cases items with
  | nil => simp [tuple, tupleRest]
  | cons next items =>
    have h := toList_intercalate item (next :: items) rest
    simpa [tuple, tupleRest] using h

theorem tupleRest_ends {as bs : List α} (h : ∀ a ∈ as, EndsItself write key a) {x y : List Char}
    (heq : tupleRest (as.map write) x = tupleRest (bs.map write) y) :
    as.map key = bs.map key ∧ x = y := by
  -- The comma behind a single item has the parenthesis behind it, any other comma a space.
  cases as with
  | nil =>
    cases bs with
    | nil => exact ⟨rfl, List.cons_injective (List.cons_injective heq)⟩
    | cons b bs => exact absurd (List.cons.inj (List.cons_injective heq)).1 (by decide)
  | cons a as =>
    cases bs with
    | nil => exact absurd (List.cons.inj (List.cons_injective heq)).1 (by decide)
    | cons b bs => exact closing_ends h heq

theorem tuple_ends (hstart : ∀ a, ∃ c cs, (write a).toList = c :: cs ∧ c ≠ ')')
    {as bs : List α} (h : ∀ a ∈ as, EndsItself write key a) {x y : List Char}
    (heq : (tuple (as.map write)).toList ++ x = (tuple (bs.map write)).toList ++ y) :
    as.map key = bs.map key ∧ x = y := by
  have hnil (z : List Char) : (tuple []).toList ++ z = '(' :: ')' :: z := rfl
  cases as with
  | nil =>
    cases bs with
    | nil =>
      rw [List.map_nil, hnil, hnil] at heq
      exact ⟨rfl, List.cons_injective (List.cons_injective heq)⟩
    | cons b bs =>
      obtain ⟨c, cs, hc, hne⟩ := hstart b
      rw [List.map_nil, hnil, List.map_cons, toList_tuple, hc] at heq
      exact absurd (List.cons.inj (List.cons_injective heq)).1.symm hne
  | cons a as =>
    cases bs with
    | nil =>
      obtain ⟨c, cs, hc, hne⟩ := hstart a
      rw [List.map_nil, hnil, List.map_cons, toList_tuple, hc] at heq
      exact absurd (List.cons.inj (List.cons_injective heq)).1 hne
    | cons b bs =>
      obtain ⟨ha, has⟩ := List.forall_mem_cons.1 h
      rw [List.map_cons, List.map_cons, toList_tuple, toList_tuple] at heq
      obtain ⟨hkey, hrest⟩ := ha (List.cons_injective heq)
      obtain ⟨hkeys, hxy⟩ := tupleRest_ends has hrest
      exact ⟨by rw [List.map_cons, List.map_cons, hkey, hkeys], hxy⟩

end Sequences

def field (part : String × String) : String := part.1 ++ "=" ++ part.2

theorem toList_fields (name : String) (part : String × String) (parts : List (String × String))
    (rest : List Char) :
    (fields name (part :: parts)).toList ++ rest =
      name.toList ++ '(' :: ((field part).toList ++ closing (parts.map field) rest) := by
  have hfields : fields name (part :: parts) =
      name ++ "(" ++ ", ".intercalate (field part :: parts.map field) ++ ")" := rfl
  rw [hfields, ← toList_intercalate]
  simp

section Fields

variable {key u v : String} {ps qs : List (String × String)} {x y : List Char}

theorem first_field {name : String}
    (h : (fields name ((key, u) :: ps)).toList ++ x = (fields name ((key, v) :: qs)).toList ++ y) :
    u.toList ++ closing (ps.map field) x = v.toList ++ closing (qs.map field) y := by
  rw [toList_fields, toList_fields, List.append_cancel_left_eq] at h
  simpa [field] using h

theorem next_field
    (h : closing (((key, u) :: ps).map field) x = closing (((key, v) :: qs).map field) y) :
    u.toList ++ closing (ps.map field) x = v.toList ++ closing (qs.map field) y := by
  simpa [closing, field] using h

theorem last_field (h : closing ([].map field) x = closing ([].map field) y) : x = y :=
  List.cons_injective h

end Fields

theorem renderAll_eq (ns : List Node) : renderAll ns = ns.map render := by
  induction ns with
  | nil => rfl
  | cons n ns ih => rw [renderAll, ih, List.map_cons]

theorem toList_render (n : Node) :
    ∃ inside, n.render.toList = n.className.toList ++ '(' :: inside := by
  cases n with
  | leaf t => exact ⟨_, (List.append_nil _).symm.trans (t.lexeme.toList_render [])⟩
  | blank => exact ⟨_, rfl⟩
  | _ => exact ⟨_, (List.append_nil _).symm.trans (toList_fields _ _ _ [])⟩

theorem className_start (n : Node) :
    '(' ∉ n.className.toList ∧ ∃ c cs, n.className.toList = c :: cs ∧ c ≠ ')' := by
  cases n <;> simp [className]

theorem render_start (n : Node) : ∃ c cs, n.render.toList = c :: cs ∧ c ≠ ')' := by
  obtain ⟨inside, hinside⟩ := toList_render n
  obtain ⟨-, c, cs, hc, hne⟩ := className_start n
  exact ⟨c, _, by rw [hinside, hc]; rfl, hne⟩

theorem className_eq {a b : Node} {x y : List Char}
    (h : a.render.toList ++ x = b.render.toList ++ y) : a.className = b.className := by
  obtain ⟨inside, ha⟩ := toList_render a
  obtain ⟨inside', hb⟩ := toList_render b
  rw [ha, hb, List.append_assoc, List.append_assoc] at h
  exact String.toList_inj.1 (ends_at (className_start a).1 (className_start b).1 h).1

def nameText (name : Option String) : String := (name.map Text.quoted).getD "None"

theorem render_rule (name : Option String) (params : List String) (body : Node) :
    (rule name params body).render =
      fields "Rule" [("name", nameText name), ("params", tuple (params.map Text.quoted)),
        ("body", body.render)] := rfl

theorem nameText_ends (name : Option String) : EndsItself nameText id name := by
  have hnone (s : String) (u v : List Char) :
      (Text.quoted s).toList ++ u ≠ "None".toList ++ v := by
    obtain ⟨cs, hcs⟩ := Text.quoted_start s
    rw [hcs]
    exact fun h => Text.quoteFor_ne s.toList (by decide) (List.cons.inj h).1
  intro name' x y h
  cases name with
  | none =>
    cases name' with
    | none => exact ⟨rfl, List.append_cancel_left h⟩
    | some t => exact absurd h.symm (hnone t y x)
  | some s =>
    cases name' with
    | none => exact absurd h (hnone s x y)
    | some t =>
      obtain ⟨hst, hxy⟩ := Text.quoted_ends s h
      exact ⟨congrArg some hst, hxy⟩

theorem truth_ends (value : Bool) :
    EndsItself (fun v => if v then "True" else "False") id value := by
  intro value' x y h
  cases value <;> cases value' <;> simp_all

theorem quoted_tuple_ends {ps qs : List String} {x y : List Char}
    (h : (tuple (ps.map Text.quoted)).toList ++ x = (tuple (qs.map Text.quoted)).toList ++ y) :
    ps = qs ∧ x = y := by
  have hstart (s : String) : ∃ c cs, (Text.quoted s).toList = c :: cs ∧ c ≠ ')' := by
    obtain ⟨cs, hcs⟩ := Text.quoted_start s
    exact ⟨_, cs, hcs, Text.quoteFor_ne s.toList (by decide)⟩
  simpa using tuple_ends hstart (fun s _ => Text.quoted_ends s) h

theorem render_tuple_ends {ns ms : List Node} (hns : ∀ n ∈ ns, EndsItself render unplaced n)
    {x y : List Char}
    (h : (tuple (renderAll ns)).toList ++ x = (tuple (renderAll ms)).toList ++ y) :
    ns.map unplaced = ms.map unplaced ∧ x = y := by
  rw [renderAll_eq, renderAll_eq] at h
  exact tuple_ends render_start hns h

mutual

theorem render_ends : ∀ n : Node, EndsItself render unplaced n
  | leaf t => by
    intro b x y h
    have hclass := className_eq h
    cases b with
    | leaf u =>
      obtain ⟨hl, hxy⟩ := Lexeme.render_ends t.lexeme h
      exact ⟨by rw [unplaced_leaf, unplaced_leaf, show t.lexeme = u.lexeme from hl], hxy⟩
    | _ => exact absurd hclass (by simp [className])
  | block body => by
    intro b x y h
    have hclass := className_eq h
    -- A node of another kind has another class; one of this kind is read part by part.
    cases b with
    | block body' =>
      rw [render, render] at h
      replace h := first_field h
      obtain ⟨hbody, h⟩ := render_tuple_ends (renderAll_ends body) h
      exact ⟨by rw [unplaced_block, unplaced_block, hbody], last_field h⟩
    | _ => exact absurd hclass (by simp [className])
  | call callee args => by
    intro b x y h
    have hclass := className_eq h
    cases b with
    | call callee' args' =>
      rw [render, render] at h
      replace h := first_field h
      obtain ⟨hcallee, h⟩ := render_ends callee h
      replace h := next_field h
      obtain ⟨hargs, h⟩ := render_tuple_ends (renderAll_ends args) h
      exact ⟨by rw [unplaced_call, unplaced_call, hcallee, hargs], last_field h⟩
    | _ => exact absurd hclass (by simp [className])
  | rule name params body => by
    intro b x y h
    have hclass := className_eq h
    cases b with
    | rule name' params' body' =>
      rw [render_rule, render_rule] at h
      replace h := first_field h
      obtain ⟨hname, h⟩ := nameText_ends name h
      replace h := next_field h
      obtain ⟨hparams, h⟩ := quoted_tuple_ends h
      replace h := next_field h
      obtain ⟨hbody, h⟩ := render_ends body h
      exact ⟨by rw [unplaced_rule, unplaced_rule, hbody, hparams, show name = name' from hname],
        last_field h⟩
    | _ => exact absurd hclass (by simp [className])
  | binary op left right => by
    intro b x y h
    have hclass := className_eq h
    cases b with
    | binary op' left' right' =>
      rw [render, render] at h
      replace h := first_field h
      obtain ⟨hop, h⟩ := Text.quoted_ends op h
      replace h := next_field h
      obtain ⟨hleft, h⟩ := render_ends left h
      replace h := next_field h
      obtain ⟨hright, h⟩ := render_ends right h
      exact ⟨by rw [unplaced_binary, unplaced_binary, show op = op' from hop, hleft, hright],
        last_field h⟩
    | _ => exact absurd hclass (by simp [className])
  | assign left right => by
    intro b x y h
    have hclass := className_eq h
    cases b with
    | assign left' right' =>
      rw [render, render] at h
      replace h := first_field h
      obtain ⟨hleft, h⟩ := render_ends left h
      replace h := next_field h
      obtain ⟨hright, h⟩ := render_ends right h
      exact ⟨by rw [unplaced_assign, unplaced_assign, hleft, hright], last_field h⟩
    | _ => exact absurd hclass (by simp [className])
  | truth value => by
    intro b x y h
    have hclass := className_eq h
    cases b with
    | truth value' =>
      rw [render, render] at h
      replace h := first_field h
      obtain ⟨hvalue, h⟩ := truth_ends value h
      exact ⟨congrArg truth hvalue, last_field h⟩
    | _ => exact absurd hclass (by simp [className])
  | blank => by
    intro b x y h
    have hclass := className_eq h
    cases b with
    | blank => exact ⟨rfl, List.append_cancel_left h⟩
    | _ => exact absurd hclass (by simp [className])

theorem renderAll_ends : ∀ ns : List Node, ∀ n ∈ ns, EndsItself render unplaced n
  | [] => List.forall_mem_nil _
  | n :: ns => List.forall_mem_cons.2 ⟨render_ends n, renderAll_ends ns⟩

end

mutual

theorem render_unplaced : ∀ n : Node, n.unplaced.render = n.render
  | leaf _ | truth _ | blank => rfl
  | block body => by
    rw [unplaced_block, render, render, renderAll_unplaced body]
  | call callee args => by
    rw [unplaced_call, render, render, render_unplaced callee, renderAll_unplaced args]
  | rule name params body => by
    rw [unplaced_rule, render, render, render_unplaced body]
  | binary op left right => by
    rw [unplaced_binary, render, render, render_unplaced left, render_unplaced right]
  | assign left right => by
    rw [unplaced_assign, render, render, render_unplaced left, render_unplaced right]

theorem renderAll_unplaced : ∀ ns : List Node, renderAll (ns.map unplaced) = renderAll ns
  | [] => rfl
  | n :: ns => by
    rw [List.map_cons, renderAll, renderAll, render_unplaced n, renderAll_unplaced ns]

end

/-- Two nodes are rendered alike if and only if they are the same up to their places. -/
theorem render_eq_iff_unplaced (a b : Node) : a.render = b.render ↔ a.unplaced = b.unplaced := by
  constructor
  · intro h
    exact (render_ends a (congrArg (fun s => s.toList ++ []) h)).1
  · intro h
    rw [← render_unplaced a, ← render_unplaced b, h]

end Node

end RuleLang
