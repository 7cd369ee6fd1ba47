import Mathlib.Data.List.Forall2
import Mathlib.Tactic.Common
import RuleLang.Proofs.JsonNumerals
import RuleLang.Proofs.JsonTexts

/-!
Reading documents. A value is a text, an array, an object, a word or a numeral, with blanks between
its parts wherever they may stand. Whatever its indentation, a document reads back as the value that
it was written for, and it holds only line feeds and characters from the space to the tilde.
-/
namespace RuleLang.Json

def isBlank (c : Char) : Bool := c = ' ' || c = '\t' || c = '\n' || c = '\r'

def skip (cs : List Char) : List Char := cs.dropWhile isBlank

section

variable {α : Type} (item : List Char → Option (α × List Char)) (stop : Char)

def items? : Nat → List Char → Option (List α × List Char)
  | 0, _ => none
  | left + 1, cs => do
    let (a, rest) ← item cs
    match skip rest with
    | [] => none
    | c :: rest =>
      if c = ',' then do
        let (more, rest) ← items? left rest
        return (a :: more, rest)
      else if c = stop then some ([a], rest)
      else none

def enclosed? (cs : List Char) : Option (List α × List Char) :=
  match skip cs with
  | [] => none
  | c :: rest => if c = stop then some ([], rest) else items? item stop cs.length cs

end

def member? (value : List Char → Option (Json × List Char)) (cs : List Char) :
    Option ((String × Json) × List Char) :=
  match skip cs with
  | '"' :: rest => do
    let (key, rest) ← text? rest
    match skip rest with
    | ':' :: rest => do
      let (j, rest) ← value rest
      return ((key, j), rest)
    | _ => none
  | _ => none

def words : List (List Char × Json) :=
  [(['n', 'u', 'l', 'l'], null), (['t', 'r', 'u', 'e'], bool true),
    (['f', 'a', 'l', 's', 'e'], bool false)]

def scalar? (word : List Char) : Option Json :=
  match words.lookup word with
  | some j => some j
  | none => (number? word).map number

def value? : Nat → List Char → Option (Json × List Char)
  | 0, _ => none
  | depth + 1, cs =>
    match skip cs with
    | '"' :: rest => (text? rest).map fun (s, rest) => (text s, rest)
    | '[' :: rest =>
      (enclosed? (value? depth) ']' rest).map fun (items, rest) => (array items, rest)
    | '\x7b' :: rest =>
      (enclosed? (member? (value? depth)) '\x7d' rest).map fun (pairs, rest) => (object pairs, rest)
    | cs => (scalar? (cs.takeWhile isWordChar)).map (·, cs.dropWhile isWordChar)

/-- The value that a document says. -/
def read? (document : List Char) : Option Json :=
  match value? (document.length + 1) document with
  | some (j, rest) => if skip rest = [] then some j else none
  | none => none

theorem skip_append {blanks : List Char} (h : blanks.all isBlank) (cs : List Char) :
    skip (blanks ++ cs) = skip cs :=
  List.dropWhile_append_of_pos (List.all_eq_true.1 h)

theorem skip_cons {c : Char} (h : ¬ isBlank c) (cs : List Char) : skip (c :: cs) = c :: cs :=
  List.dropWhile_cons_of_neg h

def SkipsBlanks {α : Type} (item : List Char → Option (α × List Char)) : Prop :=
  ∀ blanks cs, blanks.all isBlank → item (blanks ++ cs) = item cs

theorem value?_skipsBlanks (depth : Nat) : SkipsBlanks (value? depth) := by
  intro blanks cs h
  cases depth with
  | zero => rfl
  | succ depth => rw [value?, value?, skip_append h]

theorem member?_skipsBlanks (value : List Char → Option (Json × List Char)) :
    SkipsBlanks (member? value) := by
  intro blanks cs h
  rw [member?, member?, skip_append h]

/-- What follows does not go on with a word. -/
def EndsWord (rest : List Char) : Prop := ∀ c ∈ rest.head?, ¬ isWordChar c

/-- A text is read as an item whatever follows, if that does not go on with a word. -/
def Reads {α : Type} (item : List Char → Option (α × List Char)) (a : α) (cs : List Char) : Prop :=
  ∀ rest, EndsWord rest → item (cs ++ rest) = some (a, rest)

def StartsValue (c : Char) : Prop := isWordChar c ∨ c ∈ ['"', '[', '\x7b']

theorem StartsValue.not_isBlank {c : Char} (h : StartsValue c) : ¬ isBlank c := by
  intro hb
  have hc : c = ' ' ∨ c = '\t' ∨ c = '\n' ∨ c = '\r' := by
    simpa [isBlank, or_assoc] using hb
  unfold StartsValue at h
  rcases hc with rfl | rfl | rfl | rfl <;> exact absurd h (by decide)

theorem StartsValue.not_closes {c : Char} (h : StartsValue c) : c ≠ ']' ∧ c ≠ '\x7d' := by
  unfold StartsValue at h
  constructor <;>
  · rintro rfl
    exact absurd h (by decide)

theorem endsWord_cons {c : Char} (h : ¬ isWordChar c) (cs : List Char) : EndsWord (c :: cs) := by
  intro d hd
  obtain rfl := Option.some.inj hd
  exact h

theorem endsWord_append {blanks : List Char} (h : blanks.all isBlank) {cs : List Char}
    (hcs : EndsWord cs) : EndsWord (blanks ++ cs) := by
  cases blanks with
  | nil => exact hcs
  | cons c blanks =>
    refine endsWord_cons (fun hc => ?_) _
    exact StartsValue.not_isBlank (.inl hc) (Bool.and_eq_true_iff.1 h).1

section

variable {α : Type} {item : List Char → Option (α × List Char)} {stop : Char}

theorem items?_skipsBlanks (hitem : SkipsBlanks item) (left : Nat) :
    SkipsBlanks (items? item stop left) := by
  intro blanks cs h
  cases left with
  | zero => rfl
  | succ left => rw [items?, items?, hitem _ _ h]

theorem items?_intercalate (hitem : SkipsBlanks item) {inner outer : List Char}
    (hinner : inner.all isBlank) (houter : outer.all isBlank)
    (hstop : ¬ isBlank stop ∧ ¬ isWordChar stop ∧ stop ≠ ',') {a : α} {t : List Char}
    {as : List α} {ts : List (List Char)} (h : Reads item a t)
    (hs : List.Forall₂ (Reads item) as ts) {left : Nat} (hleft : as.length < left)
    (rest : List Char) :
    items? item stop left ((',' :: inner).intercalate (t :: ts) ++ (outer ++ stop :: rest)) =
      some (a :: as, rest) := by
  induction hs generalizing a t left with
  | nil =>
    obtain ⟨left, rfl⟩ := Nat.exists_eq_add_one_of_ne_zero (Nat.ne_of_gt hleft)
    have hends := endsWord_append houter (endsWord_cons hstop.2.1 rest)
    rw [List.intercalate_singleton, items?, h _ hends]
    simp only [Option.bind_eq_bind, Option.bind_some, skip_append houter, skip_cons hstop.1]
    rw [if_neg hstop.2.2, if_pos trivial]
  | @cons b u as ts hb _ ih =>
    obtain ⟨left, rfl⟩ := Nat.exists_eq_add_one_of_ne_zero (Nat.ne_of_gt (Nat.zero_lt_of_lt hleft))
    have hcomma : ¬ isWordChar ',' := by decide
    have hblank : ¬ isBlank ',' := by decide
    rw [List.intercalate_cons_cons, List.append_assoc, List.append_assoc, List.cons_append, items?,
      h _ (endsWord_cons hcomma _)]
    simp only [Option.bind_eq_bind, Option.bind_some, skip_cons hblank, if_true]
    have hmore : items? item stop left (inner ++ ((',' :: inner).intercalate (u :: ts) ++
        (outer ++ stop :: rest))) = some (b :: as, rest) := by
      rw [items?_skipsBlanks hitem left _ _ hinner]
      exact ih hb (Nat.lt_of_succ_lt_succ hleft)
    rw [hmore]
    rfl

theorem length_le_intercalate (separator : Char) (inner : List Char) (t : List Char)
    (ts : List (List Char)) :
    ts.length ≤ ((separator :: inner).intercalate (t :: ts)).length := by
  induction ts generalizing t with
  | nil => exact Nat.zero_le _
  | cons u ts ih =>
    have hle := ih u
    rw [List.intercalate_cons_cons, List.length_append, List.length_append, List.length_cons,
      List.length_cons]
    omega

theorem enclosed?_items (hitem : SkipsBlanks item) {inner outer opening : List Char}
    (hinner : inner.all isBlank) (houter : outer.all isBlank) (hopening : opening.all isBlank)
    (hstop : ¬ isBlank stop ∧ ¬ isWordChar stop ∧ stop ≠ ',') {a : α} {t : List Char}
    {as : List α} {ts : List (List Char)} (h : Reads item a t)
    (hs : List.Forall₂ (Reads item) as ts)
    (ht : ∃ c cs, t = c :: cs ∧ ¬ isBlank c ∧ c ≠ stop) (rest : List Char) :
    enclosed? item stop
        (opening ++ ((',' :: inner).intercalate (t :: ts) ++ (outer ++ stop :: rest))) =
      some (a :: as, rest) := by
  have hlength : as.length <
      ((',' :: inner).intercalate (t :: ts) ++ (outer ++ stop :: rest)).length := by
    have hle := length_le_intercalate ',' inner t ts
    rw [hs.length_eq, List.length_append, List.length_append, List.length_cons]
    omega
  have hread := items?_intercalate hitem hinner houter hstop h hs
    (Nat.lt_of_lt_of_le hlength (Nat.le_add_left _ opening.length)) rest
  obtain ⟨c, cs, rfl, hc, hne⟩ := ht
  have hhead : ∃ more, (',' :: inner).intercalate ((c :: cs) :: ts) ++ (outer ++ stop :: rest) =
      c :: more := by
    cases ts with
    | nil => exact ⟨_, by rw [List.intercalate_singleton]; rfl⟩
    | cons u ts => exact ⟨_, by rw [List.intercalate_cons_cons]; rfl⟩
  obtain ⟨more, hmore⟩ := hhead
  rw [enclosed?, skip_append hopening, List.length_append,
    items?_skipsBlanks hitem _ _ _ hopening, hmore, skip_cons hc]
  dsimp only
  rw [if_neg hne, ← hmore]
  exact hread

end

theorem numeral_starts (x : Number) : ∃ c cs, (numeral x).toList = c :: cs ∧ isWordChar c := by
  have hread := number?_numeral x
  have hword := numeral_word x
  cases h : (numeral x).toList with
  | nil => rw [h] at hread; cases hread
  | cons c cs =>
    rw [h] at hword
    exact ⟨c, cs, rfl, (Bool.and_eq_true_iff.1 hword).1⟩

theorem lineBreak_blank (indent : Option Int) (level : Nat) :
    (lineBreak indent level).toList.all isBlank := by
  cases indent with
  | none => rfl
  | some columns =>
    rw [lineBreak, String.toList_ofList, List.all_cons]
    refine Bool.and_eq_true_iff.2 ⟨rfl, List.all_eq_true.2 fun c hc => ?_⟩
    rw [List.eq_of_mem_replicate hc]
    rfl

theorem separator_chars (indent : Option Int) (level : Nat) :
    ∃ inner, (separator indent level).toList = ',' :: inner ∧ inner.all isBlank := by
  cases indent with
  | none => exact ⟨[' '], by rw [separator]; decide, rfl⟩
  | some columns =>
    refine ⟨_, ?_, lineBreak_blank (some columns) level⟩
    rw [separator, String.toList_append]
    rfl

theorem enclosed_nil (indent : Option Int) (level : Nat) (opening closing : String) :
    (enclosed indent level opening closing []).toList = opening.toList ++ closing.toList := by
  rw [enclosed, String.toList_append]

theorem enclosed_cons (indent : Option Int) (level : Nat) (opening closing t : String)
    (ts : List String) : (enclosed indent level opening closing (t :: ts)).toList =
      opening.toList ++ ((lineBreak indent (level + 1)).toList ++
        ((separator indent (level + 1)).toList.intercalate
          (t.toList :: ts.map String.toList) ++
            ((lineBreak indent level).toList ++ closing.toList))) := by
  simp only [enclosed, String.toList_append, String.toList_intercalate, List.map_cons,
    List.append_assoc]

theorem enclosed_starts (indent : Option Int) (level : Nat) (opening closing : String)
    (items : List String) : ∃ cs,
      (enclosed indent level opening closing items).toList = opening.toList ++ cs := by
  cases items with
  | nil => exact ⟨_, enclosed_nil ..⟩
  | cons t ts => exact ⟨_, enclosed_cons ..⟩

theorem quoted_chars (s : String) : ∃ cs, (quoted s).toList = '"' :: cs :=
  ⟨_, String.toList_ofList⟩

theorem null_chars (indent : Option Int) (level : Nat) :
    (write indent level null).toList = ['n', 'u', 'l', 'l'] := by
  rw [write]
  decide

theorem bool_chars (indent : Option Int) (level : Nat) :
    (write indent level (bool false)).toList = ['f', 'a', 'l', 's', 'e'] ∧
      (write indent level (bool true)).toList = ['t', 'r', 'u', 'e'] := by
  rw [write, write]
  decide

theorem write_starts (indent : Option Int) (level : Nat) (j : Json) :
    ∃ c cs, (j.write indent level).toList = c :: cs ∧ StartsValue c := by
  cases j with
  | null => exact ⟨'n', _, null_chars indent level, .inl rfl⟩
  | bool value =>
    cases value with
    | false => exact ⟨'f', _, (bool_chars indent level).1, .inl rfl⟩
    | true => exact ⟨'t', _, (bool_chars indent level).2, .inl rfl⟩
  | number x =>
    obtain ⟨c, cs, h, hc⟩ := numeral_starts x
    exact ⟨c, cs, by rw [write, h], .inl hc⟩
  | text s =>
    obtain ⟨cs, h⟩ := quoted_chars s
    exact ⟨'"', cs, by rw [write, h], .inr (by decide)⟩
  | array items =>
    obtain ⟨cs, h⟩ := enclosed_starts indent level "[" "]" (writeAll indent (level + 1) items)
    exact ⟨'[', cs, by rw [write, h]; rfl, .inr (by decide)⟩
  | object pairs =>
    obtain ⟨cs, h⟩ :=
      enclosed_starts indent level "\x7b" "\x7d" (writePairs indent (level + 1) pairs)
    exact ⟨'\x7b', cs, by rw [write, h]; rfl, .inr (by decide)⟩

theorem value?_text (depth : Nat) (s : String) :
    Reads (value? (depth + 1)) (text s) (quoted s).toList := by
  intro rest _
  obtain ⟨body, hbody, hread⟩ := text?_quoted s rest
  have hquote : ¬ isBlank '"' := by decide
  rw [hbody, value?, skip_cons hquote]
  show Option.map _ (text? body) = _
  rw [hread]
  rfl

theorem value?_scalar (depth : Nat) {word : List Char} {j : Json} (hword : word.all isWordChar)
    (hne : word ≠ []) (hj : scalar? word = some j) : Reads (value? (depth + 1)) j word := by
  intro rest hrest
  obtain ⟨htake, hdrop⟩ := Lexer.span_run word hword rest hrest
  obtain ⟨c, cs, rfl⟩ := List.exists_cons_of_ne_nil hne
  have hc : isWordChar c := (Bool.and_eq_true_iff.1 hword).1
  have hne : ∀ x ∈ ['"', '[', '\x7b'], c ≠ x := by
    have hall : ['"', '[', '\x7b'].all fun x => !isWordChar x := by decide
    intro x hx hcx
    have hx' := List.all_eq_true.1 hall x hx
    rw [← hcx, hc] at hx'
    cases hx'
  rw [value?, List.cons_append, skip_cons (StartsValue.not_isBlank (.inl hc)), ← List.cons_append]
  split
  · next heq => exact absurd (List.cons.inj heq).1 (hne _ (by simp))
  · next heq => exact absurd (List.cons.inj heq).1 (hne _ (by simp))
  · next heq => exact absurd (List.cons.inj heq).1 (hne _ (by simp))
  · rw [htake, hdrop, hj]
    rfl

theorem scalar?_numeral (x : Number) : scalar? (numeral x).toList = some (number x) := by
  have hread := number?_numeral x
  -- no word is a numeral
  have hwords : words.lookup (numeral x).toList = none := by
    rw [List.lookup_eq_none_iff]
    intro w hw
    have hnone : ∀ w ∈ words.map Prod.fst, number? w = none := by decide
    have hne : (numeral x).toList ≠ w.1 := by
      intro heq
      rw [heq, hnone _ (List.mem_map_of_mem hw)] at hread
      cases hread
    exact bne_iff_ne.2 hne
  rw [scalar?, hwords, hread]
  rfl

theorem length_le_of_mem_intercalate {separator t : List Char} {ts : List (List Char)}
    (h : t ∈ ts) : t.length ≤ (separator.intercalate ts).length := by
  induction ts with
  | nil => cases h
  | cons u us ih =>
    cases us with
    | nil =>
      obtain rfl := List.mem_singleton.1 h
      rw [List.intercalate_singleton]
    | cons v us =>
      rw [List.intercalate_cons_cons, List.length_append, List.length_append]
      rcases List.mem_cons.1 h with rfl | h
      · omega
      · have hle := ih h
        omega

theorem length_lt_enclosed {indent : Option Int} {level : Nat} {opening closing t : String}
    {ts : List String} (ho : 0 < opening.toList.length) (h : t ∈ ts) :
    t.toList.length < (enclosed indent level opening closing ts).toList.length := by
  cases ts with
  | nil => cases h
  | cons u us =>
    have hle : t.toList.length ≤ ((separator indent (level + 1)).toList.intercalate
        (u.toList :: us.map String.toList)).length :=
      length_le_of_mem_intercalate (List.mem_map_of_mem h)
    rw [enclosed_cons, List.length_append, List.length_append, List.length_append]
    omega

theorem enclosed?_enclosed {α : Type} {item : List Char → Option (α × List Char)}
    (hitem : SkipsBlanks item) (opening closing : String) (start : Char) {stop : Char}
    (hstart : opening.toList = [start]) (hclosing : closing.toList = [stop])
    (hstop : ¬ isBlank stop ∧ ¬ isWordChar stop ∧ stop ≠ ',') (indent : Option Int) (level : Nat)
    {as : List α} {ts : List String} (h : List.Forall₂ (fun a t => Reads item a t.toList) as ts)
    (hts : ∀ t ∈ ts, ∃ c cs, t.toList = c :: cs ∧ ¬ isBlank c ∧ c ≠ stop) (rest : List Char) :
    ∃ inside, (enclosed indent level opening closing ts).toList ++ rest = start :: inside ∧
      enclosed? item stop inside = some (as, rest) := by
  cases h with
  | nil =>
    refine ⟨stop :: rest, ?_, ?_⟩
    · rw [enclosed_nil, hstart, hclosing]
      rfl
    · rw [enclosed?, skip_cons hstop.1]
      exact if_pos rfl
  | @cons a t as ts ha hs =>
    obtain ⟨inner, hinner, hblank⟩ := separator_chars indent (level + 1)
    have hs' : List.Forall₂ (Reads item) as (ts.map String.toList) := by
      rw [List.forall₂_map_right_iff]
      exact hs
    have hread := enclosed?_items hitem hblank (lineBreak_blank indent level)
      (lineBreak_blank indent (level + 1)) hstop ha hs' (hts t (by simp)) rest
    refine ⟨_, ?_, hread⟩
    rw [enclosed_cons, hinner, hstart, hclosing]
    simp

theorem writePairs_starts (indent : Option Int) (level : Nat) (pairs : List (String × Json)) :
    ∀ t ∈ writePairs indent level pairs, ∃ cs, t.toList = '"' :: cs := by
  induction pairs with
  | nil => exact List.forall_mem_nil _
  | cons p pairs ih =>
    obtain ⟨key, j⟩ := p
    obtain ⟨cs, hcs⟩ := quoted_chars key
    rw [writePairs, List.forall_mem_cons]
    refine ⟨⟨cs ++ (": ".toList ++ (write indent level j).toList), ?_⟩, ih⟩
    rw [String.toList_append, String.toList_append, hcs, List.append_assoc]
    rfl

theorem writeAll_starts (indent : Option Int) (level : Nat) (js : List Json) :
    ∀ t ∈ writeAll indent level js, ∃ c cs, t.toList = c :: cs ∧ StartsValue c := by
  induction js with
  | nil => exact List.forall_mem_nil _
  | cons j js ih =>
    rw [writeAll, List.forall_mem_cons]
    exact ⟨write_starts indent level j, ih⟩

theorem value?_array {indent : Option Int} {level depth : Nat} {items : List Json}
    (h : List.Forall₂ (fun j t => Reads (value? depth) j t.toList) items
      (writeAll indent (level + 1) items)) :
    Reads (value? (depth + 1)) (array items)
      (enclosed indent level "[" "]" (writeAll indent (level + 1) items)).toList := by
  intro rest _
  have hopening : ¬ isBlank '[' := by decide
  have hstarts : ∀ t ∈ writeAll indent (level + 1) items,
      ∃ c cs, t.toList = c :: cs ∧ ¬ isBlank c ∧ c ≠ ']' := fun t ht => by
    obtain ⟨c, cs, hcs, hc⟩ := writeAll_starts indent (level + 1) items t ht
    exact ⟨c, cs, hcs, hc.not_isBlank, hc.not_closes.1⟩
  obtain ⟨inside, hinside, hread⟩ := enclosed?_enclosed (value?_skipsBlanks depth)
    "[" "]" '[' (by decide) (by decide) (by decide) indent
    level h hstarts rest
  rw [hinside, value?, skip_cons hopening]
  show Option.map _ (enclosed? (value? depth) ']' inside) = _
  rw [hread]
  rfl

theorem value?_object {indent : Option Int} {level depth : Nat} {pairs : List (String × Json)}
    (h : List.Forall₂ (fun p t => Reads (member? (value? depth)) p t.toList) pairs
      (writePairs indent (level + 1) pairs)) :
    Reads (value? (depth + 1)) (object pairs)
      (enclosed indent level "\x7b" "\x7d" (writePairs indent (level + 1) pairs)).toList := by
  intro rest _
  have hopening : ¬ isBlank '\x7b' := by decide
  have hquote : ¬ isBlank '"' ∧ '"' ≠ '\x7d' := by decide
  have hstarts : ∀ t ∈ writePairs indent (level + 1) pairs,
      ∃ c cs, t.toList = c :: cs ∧ ¬ isBlank c ∧ c ≠ '\x7d' := fun t ht => by
    obtain ⟨cs, hcs⟩ := writePairs_starts indent (level + 1) pairs t ht
    exact ⟨'"', cs, hcs, hquote⟩
  obtain ⟨inside, hinside, hread⟩ := enclosed?_enclosed (member?_skipsBlanks (value? depth))
    "\x7b" "\x7d" '\x7b' (by decide) (by decide) (by decide)
    indent level h hstarts rest
  rw [hinside, value?, skip_cons hopening]
  show Option.map _ (enclosed? (member? (value? depth)) '\x7d' inside) = _
  rw [hread]
  rfl

theorem member?_pair {value : List Char → Option (Json × List Char)} (hv : SkipsBlanks value)
    {key : String} {j : Json} {written : String} (h : Reads value j written.toList) :
    Reads (member? value) (key, j) (quoted key ++ ": " ++ written).toList := by
  intro rest hrest
  have hmark : ": ".toList = [':', ' '] := by decide
  have hquote : ¬ isBlank '"' := by decide
  have hcolon : ¬ isBlank ':' := by decide
  obtain ⟨body, hbody, hread⟩ := text?_quoted key (':' :: ' ' :: (written.toList ++ rest))
  have hchars : (quoted key ++ ": " ++ written).toList ++ rest = '"' :: body := by
    rw [← hbody, String.toList_append, String.toList_append, hmark]
    simp
  have hblank : [' '].all isBlank := by decide
  rw [hchars, member?, skip_cons hquote]
  show (text? body).bind _ = _
  rw [hread]
  show (match skip (':' :: ' ' :: (written.toList ++ rest)) with
    | ':' :: rest => (value rest).bind fun p => some ((key, p.1), p.2)
    | _ => none) = _
  rw [skip_cons hcolon]
  show (value ([' '] ++ (written.toList ++ rest))).bind _ = _
  rw [hv _ _ hblank, h rest hrest]
  rfl

section

variable {indent : Option Int} {depth : Nat}
  (hvalue : ∀ (j : Json) (level : Nat), (j.write indent level).toList.length < depth →
    Reads (value? depth) j (j.write indent level).toList)
include hvalue

theorem values?_writeAll (level : Nat) (js : List Json)
    (h : ∀ t ∈ writeAll indent level js, t.toList.length < depth) :
    List.Forall₂ (fun j t => Reads (value? depth) j t.toList) js (writeAll indent level js) := by
  induction js with
  | nil => exact .nil
  | cons j js ih =>
    rw [writeAll, List.forall_mem_cons] at h
    exact .cons (hvalue j level h.1) (ih h.2)

theorem members?_writePairs (level : Nat) (pairs : List (String × Json))
    (h : ∀ t ∈ writePairs indent level pairs, t.toList.length < depth) :
    List.Forall₂ (fun p t => Reads (member? (value? depth)) p t.toList) pairs
      (writePairs indent level pairs) := by
  induction pairs with
  | nil => exact .nil
  | cons p pairs ih =>
    obtain ⟨key, j⟩ := p
    rw [writePairs, List.forall_mem_cons] at h
    have hlength := h.1
    rw [String.toList_append, List.length_append] at hlength
    exact .cons (member?_pair (value?_skipsBlanks depth) (hvalue j level (by omega))) (ih h.2)

end

theorem value?_write {indent : Option Int} {depth : Nat} (j : Json) (level : Nat)
    (h : (j.write indent level).toList.length < depth) :
    Reads (value? depth) j (j.write indent level).toList := by
  -- what stands between brackets is shorter than it is with them, so that the depth is enough
  induction depth generalizing j level with
  | zero => exact absurd h (Nat.not_lt_zero _)
  | succ depth ih =>
    cases j with
    | null =>
      rw [null_chars]
      exact value?_scalar depth rfl nofun rfl
    | bool value =>
      cases value with
      | false =>
        rw [(bool_chars indent level).1]
        exact value?_scalar depth rfl nofun rfl
      | true =>
        rw [(bool_chars indent level).2]
        exact value?_scalar depth rfl nofun rfl
    | number x =>
      obtain ⟨c, cs, hcs, -⟩ := numeral_starts x
      rw [write]
      exact value?_scalar depth (numeral_word x) (hcs ▸ nofun) (scalar?_numeral x)
    | text s =>
      rw [write]
      exact value?_text depth s
    | array items =>
      rw [write] at h ⊢
      exact value?_array (values?_writeAll ih (level + 1) items fun t ht =>
        Nat.lt_of_lt_of_le (length_lt_enclosed (by decide) ht) (Nat.le_of_lt_succ h))
    | object pairs =>
      rw [write] at h ⊢
      exact value?_object (members?_writePairs ih (level + 1) pairs fun t ht =>
        Nat.lt_of_lt_of_le (length_lt_enclosed (by decide) ht) (Nat.le_of_lt_succ h))

theorem read?_document (indent : Option Int) (j : Json) :
    read? (j.document indent).toList = some j := by
  have hend : EndsWord [] := nofun
  have h := value?_write j 0 (Nat.lt_succ_self (j.write indent 0).toList.length) [] hend
  rw [List.append_nil] at h
  rw [read?, document, h]
  rfl

def Plain (cs : List Char) : Prop := ∀ c ∈ cs, c = '\n' ∨ IsPrintable c

theorem plain_append {a b : List Char} (ha : Plain a) (hb : Plain b) : Plain (a ++ b) :=
  List.forall_mem_append.2 ⟨ha, hb⟩

theorem plain_of_printable {cs : List Char} (h : ∀ c ∈ cs, IsPrintable c) : Plain cs :=
  fun c hc => .inr (h c hc)

theorem printable_between {a b c : Char} (ha : IsPrintable a) (hb : IsPrintable b)
    (h : a.val ≤ c.val ∧ c.val ≤ b.val) : IsPrintable c :=
  ⟨ha.1.trans (UInt32.le_iff_toNat_le.1 h.1), (UInt32.le_iff_toNat_le.1 h.2).trans hb.2⟩

theorem isAlphanum_printable {c : Char} (h : c.isAlphanum) : IsPrintable c := by
  obtain halpha | hdigit : c.isAlpha ∨ c.isDigit := Bool.or_eq_true_iff.1 h
  · obtain hupper | hlower : c.isUpper ∨ c.isLower := Bool.or_eq_true_iff.1 halpha
    · exact printable_between (by decide : _ ∧ _) (by decide : _ ∧ _) (of_decide_eq_true hupper)
    · have hc := Bool.and_eq_true_iff.1 hlower
      exact printable_between (by decide : _ ∧ _) (by decide : _ ∧ _)
        ⟨of_decide_eq_true hc.1, of_decide_eq_true hc.2⟩
  · have hc := Bool.and_eq_true_iff.1 hdigit
    exact printable_between (by decide : _ ∧ _) (by decide : _ ∧ _)
      ⟨of_decide_eq_true hc.1, of_decide_eq_true hc.2⟩

theorem isWordChar_printable {c : Char} (h : isWordChar c) : IsPrintable c := by
  have hc : ((c.isAlphanum ∨ c = '+') ∨ c = '-') ∨ c = '.' := by
    simpa only [isWordChar, Bool.or_eq_true, decide_eq_true_iff] using h
  unfold IsPrintable
  obtain ((h | rfl) | rfl) | rfl := hc
  · exact isAlphanum_printable h
  all_goals decide

theorem plain_of_word {cs : List Char} (h : cs.all isWordChar) : Plain cs :=
  plain_of_printable fun c hc => isWordChar_printable (List.all_eq_true.1 h c hc)

theorem lineBreak_plain (indent : Option Int) (level : Nat) :
    Plain (lineBreak indent level).toList := by
  cases indent with
  | none => exact List.forall_mem_nil _
  | some columns =>
    rw [lineBreak, String.toList_ofList]
    refine List.forall_mem_cons.2 ⟨.inl rfl, fun c hc => .inr ?_⟩
    rw [List.eq_of_mem_replicate hc]
    unfold IsPrintable
    decide

theorem separator_plain (indent : Option Int) (level : Nat) :
    Plain (separator indent level).toList := by
  cases indent with
  | none =>
    rw [separator]
    exact plain_of_printable (printable_of_all (by decide))
  | some columns =>
    rw [separator, String.toList_append]
    exact plain_append (plain_of_printable (printable_of_all (by decide))) (lineBreak_plain _ _)

theorem plain_intercalate {separator : List Char} {ts : List (List Char)} (h : Plain separator)
    (hts : ∀ t ∈ ts, Plain t) : Plain (separator.intercalate ts) := by
  induction ts with
  | nil => exact List.forall_mem_nil _
  | cons t ts ih =>
    have ht := List.forall_mem_cons.1 hts
    cases ts with
    | nil =>
      rw [List.intercalate_singleton]
      exact ht.1
    | cons u us =>
      rw [List.intercalate_cons_cons]
      exact plain_append (plain_append ht.1 h) (ih ht.2)

theorem enclosed_plain {indent : Option Int} {level : Nat} {opening closing : String}
    {items : List String} (ho : Plain opening.toList) (hc : Plain closing.toList)
    (h : ∀ t ∈ items, Plain t.toList) :
    Plain (enclosed indent level opening closing items).toList := by
  cases items with
  | nil =>
    rw [enclosed_nil]
    exact plain_append ho hc
  | cons t ts =>
    rw [enclosed_cons]
    refine plain_append ho (plain_append (lineBreak_plain _ _)
      (plain_append (plain_intercalate (separator_plain _ _) ?_)
        (plain_append (lineBreak_plain _ _) hc)))
    intro u hu
    obtain ⟨t', ht', rfl⟩ := List.mem_map.1 (show u ∈ (t :: ts).map String.toList from hu)
    exact h t' ht'

mutual

theorem write_plain (indent : Option Int) : ∀ (j : Json) (level : Nat),
    Plain (j.write indent level).toList
  | null, level => by
    rw [null_chars]
    exact plain_of_word rfl
  | bool false, level => by
    rw [(bool_chars indent level).1]
    exact plain_of_word rfl
  | bool true, level => by
    rw [(bool_chars indent level).2]
    exact plain_of_word rfl
  | number x, level => by
    rw [write]
    exact plain_of_word (numeral_word x)
  | text s, level => by
    rw [write]
    exact plain_of_printable (quoted_printable s)
  | array items, level => by
    rw [write]
    exact enclosed_plain (plain_of_printable (printable_of_all (by decide)))
      (plain_of_printable (printable_of_all (by decide))) (writeAll_plain indent items (level + 1))
  | object pairs, level => by
    rw [write]
    exact enclosed_plain (plain_of_printable (printable_of_all (by decide)))
      (plain_of_printable (printable_of_all (by decide)))
      (writePairs_plain indent pairs (level + 1))

theorem writeAll_plain (indent : Option Int) : ∀ (js : List Json) (level : Nat),
    ∀ t ∈ writeAll indent level js, Plain t.toList
  | [], level => List.forall_mem_nil _
  | j :: js, level => by
    rw [writeAll, List.forall_mem_cons]
    exact ⟨write_plain indent j level, writeAll_plain indent js level⟩

theorem writePairs_plain (indent : Option Int) : ∀ (pairs : List (String × Json)) (level : Nat),
    ∀ t ∈ writePairs indent level pairs, Plain t.toList
  | [], level => List.forall_mem_nil _
  | (key, j) :: pairs, level => by
    rw [writePairs, List.forall_mem_cons, String.toList_append, String.toList_append]
    have hmark : Plain ": ".toList := plain_of_printable (printable_of_all (by decide))
    have hkey := plain_append (plain_of_printable (quoted_printable key)) hmark
    exact ⟨plain_append hkey (write_plain indent j level), writePairs_plain indent pairs level⟩

end

end RuleLang.Json
