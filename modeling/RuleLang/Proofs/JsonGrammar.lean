import RuleLang.Proofs.Documents

/-!
Standard documents. The grammar of the interchange format says what a document may look like,
whatever writes or reads it: it knows no name for an infinity. A value without infinite numbers is
written in the grammar. A value with one is not, since outside of texts no standard document has the
letter that the name begins with.
-/
namespace RuleLang

def Number.isInfinite : Number → Bool
  | finite _ _ => false
  | infinite _ => true

namespace Json

open Alphabet

def Digits (cs : List Char) : Prop := cs ≠ [] ∧ cs.all isDigit

inductive Whole : List Char → Prop
  | zero : Whole ['0']
  | digits {d : Char} {ds : List Char} : isDigit d → d ≠ '0' → ds.all isDigit → Whole (d :: ds)

inductive Places : List Char → Prop
  | none : Places []
  | digits {ds : List Char} : Digits ds → Places ('.' :: ds)

inductive Exponent : List Char → Prop
  | none : Exponent []
  | digits {mark : Char} {sign ds : List Char} :
    mark ∈ ['e', 'E'] → sign ∈ [[], ['+'], ['-']] → Digits ds → Exponent (mark :: (sign ++ ds))

inductive Numeral : List Char → Prop
  | parts {sign whole places exponent : List Char} :
    sign ∈ [[], ['-']] → Whole whole → Places places → Exponent exponent →
    Numeral (sign ++ (whole ++ (places ++ exponent)))

def isHexDigit (c : Char) : Bool := (hexValue? c).isSome

/-- What may stand between the quotes of a text. -/
inductive Characters : List Char → Prop
  | none : Characters []
  | plain {c : Char} {cs : List Char} :
    0x20 ≤ c.toNat → c ≠ '"' → c ≠ '\\' → Characters cs → Characters (c :: cs)
  | letter {c : Char} {cs : List Char} :
    c ∈ ['"', '\\', '/', 'b', 'f', 'n', 'r', 't'] → Characters cs → Characters ('\\' :: c :: cs)
  | unit {digits cs : List Char} :
    digits.length = 4 → digits.all isHexDigit → Characters cs →
    Characters ('\\' :: 'u' :: (digits ++ cs))

inductive Text : List Char → Prop
  | quotes {body : List Char} : Characters body → Text ('"' :: (body ++ ['"']))

/-- The parts of a document, and the lists that stand between its brackets. -/
inductive Part
  | value | member
  | list (item : Part)

inductive Standard : Part → List Char → Prop
  | null : Standard .value ['n', 'u', 'l', 'l']
  | truth : Standard .value ['t', 'r', 'u', 'e']
  | falsehood : Standard .value ['f', 'a', 'l', 's', 'e']
  | number {cs : List Char} : Numeral cs → Standard .value cs
  | text {cs : List Char} : Text cs → Standard .value cs
  | noItems {blanks : List Char} : blanks.all isBlank → Standard .value ('[' :: (blanks ++ [']']))
  | items {cs : List Char} : Standard (.list .value) cs → Standard .value ('[' :: (cs ++ [']']))
  | noMembers {blanks : List Char} :
    blanks.all isBlank → Standard .value ('\x7b' :: (blanks ++ ['\x7d']))
  | members {cs : List Char} :
    Standard (.list .member) cs → Standard .value ('\x7b' :: (cs ++ ['\x7d']))
  | member {key before behind cs : List Char} :
    Text key → before.all isBlank → behind.all isBlank → Standard .value cs →
    Standard .member (key ++ (before ++ ':' :: (behind ++ cs)))
  | last {item : Part} {before behind cs : List Char} :
    before.all isBlank → behind.all isBlank → Standard item cs →
    Standard (.list item) (before ++ (cs ++ behind))
  | more {item : Part} {before behind cs rest : List Char} :
    before.all isBlank → behind.all isBlank → Standard item cs → Standard (.list item) rest →
    Standard (.list item) (before ++ (cs ++ (behind ++ ',' :: rest)))

inductive StandardDocument : List Char → Prop
  | value {before behind cs : List Char} :
    before.all isBlank → behind.all isBlank → Standard .value cs →
    StandardDocument (before ++ (cs ++ behind))

mutual

def numbers : Json → List Number
  | number x => [x]
  | array items => numbersAll items
  | object pairs => numbersPairs pairs
  | _ => []

def numbersAll : List Json → List Number
  | [] => []
  | j :: js => numbers j ++ numbersAll js

def numbersPairs : List (String × Json) → List Number
  | [] => []
  | (_, j) :: rest => numbers j ++ numbersPairs rest

end

theorem whole_of_reader {cs whole behind : List Char} (h : whole? cs = some (whole, behind)) :
    cs = whole ++ behind ∧ Whole whole := by
  obtain ⟨hcs, hall, hne⟩ := whole?_split h
  refine ⟨hcs, ?_⟩
  unfold whole? at h
  dsimp only at h
  split_ifs at h with hw
  obtain ⟨rfl, _⟩ := Prod.mk.inj (Option.some.inj h)
  rcases hw with hw | ⟨_, hw⟩
  · rw [hw]
    exact .zero
  · obtain ⟨d, ds, hds⟩ := List.exists_cons_of_ne_nil hne
    rw [hds] at hw hall ⊢
    have hd := Bool.and_eq_true_iff.1 hall
    exact .digits hd.1 (fun hzero => hw (congrArg some hzero)) hd.2

theorem places_of_reader {cs places behind : List Char} (h : places? cs = some (places, behind)) :
    ∃ written, cs = written ++ behind ∧ Places written := by
  unfold places? at h
  split at h
  · next cs' =>
    split_ifs at h with hd
    obtain ⟨rfl, rfl⟩ := Prod.mk.inj (Option.some.inj h)
    refine ⟨'.' :: cs'.takeWhile isDigit, ?_, .digits ⟨hd, List.all_takeWhile⟩⟩
    rw [List.cons_append, List.takeWhile_append_dropWhile]
  · obtain ⟨_, rfl⟩ := Prod.mk.inj (Option.some.inj h)
    exact ⟨[], rfl, .none⟩

theorem exponent_of_reader {cs : List Char} {e : Int} (h : exponent? cs = some e) :
    Exponent cs := by
  unfold exponent? at h
  split at h
  · exact .none
  · next c part =>
    split_ifs at h with hm
    have hmark : c ∈ ['e', 'E'] := by simpa using hm
    unfold Decimal.ofExponent? at h
    dsimp only at h
    split at h
    · next ds =>
      split_ifs at h with hd
      exact @Exponent.digits c ['+'] ds hmark (by decide) hd
    · next ds =>
      split_ifs at h with hd
      · exact @Exponent.digits c ['-'] ds hmark (by decide) hd
      · cases h
    · split_ifs at h with hd
      exact @Exponent.digits c [] part hmark (by decide) hd

theorem numeral_of_reader {negative : Bool} {cs sign : List Char} {x : Number}
    (hs : sign ∈ [[], ['-']]) (h : magnitude? negative cs = some x) : Numeral (sign ++ cs) := by
  unfold magnitude? at h
  cases hw : whole? cs with
  | none => rw [hw] at h; cases h
  | some w =>
    obtain ⟨whole, behind⟩ := w
    obtain ⟨rfl, hwhole⟩ := whole_of_reader hw
    rw [hw] at h
    cases hp : places? behind with
    | none => simp [hp] at h
    | some p =>
      obtain ⟨places, part⟩ := p
      obtain ⟨written, rfl, hwritten⟩ := places_of_reader hp
      cases he : exponent? part with
      | none => simp [hp, he] at h
      | some e => exact .parts hs hwhole hwritten (exponent_of_reader he)

theorem numeral_finite {x : Number} (h : x.isInfinite = false) : Numeral (numeral x).toList := by
  cases x with
  | infinite negative => cases h
  | finite negative m =>
    have hread := magnitude?_magnitudeText negative m
    cases negative with
    | false => exact @numeral_of_reader false _ [] _ (by decide) hread
    | true =>
      have htext : (numeral (.finite true m)).toList = ['-'] ++ (Number.magnitudeText m).toList :=
        String.toList_append
      rw [htext]
      exact numeral_of_reader (by decide) hread

theorem unit_characters (n : Nat) {cs : List Char} (h : Characters cs) :
    Characters (unit n ++ cs) := by
  have hdigit (k : Nat) : isHexDigit (Text.Hex.digit (k % 16)) := by
    rw [isHexDigit, hexValue?_digit (Nat.mod_lt k (by decide))]
    rfl
  refine .unit (Text.Hex.length_fixed 4 n) ?_ h
  simp [Text.Hex.fixed, hdigit]

theorem escaped_characters (c : Char) {cs : List Char} (h : Characters cs) :
    Characters (escaped c ++ cs) := by
  unfold escaped
  split_ifs with h1 h2 h3 h4 h5 h6 h7
  · rcases h1 with rfl | rfl <;> exact .letter (by decide) h
  iterate 5 exact .letter (by decide) h
  · exact .plain h7.1 (not_or.1 h1).1 (not_or.1 h1).2 h
  · unfold units
    split_ifs
    · exact unit_characters _ h
    · rw [List.append_assoc]
      exact unit_characters _ (unit_characters _ h)

theorem quoted_text (s : String) : Text (quoted s).toList := by
  rw [quoted, String.toList_ofList]
  refine .quotes ?_
  induction s.toList with
  | nil => exact .none
  | cons c cs ih => exact escaped_characters c ih

theorem intercalate_standard {item : Part} {opening inner outer t : List Char}
    {ts : List (List Char)} (hopening : opening.all isBlank) (hinner : inner.all isBlank)
    (houter : outer.all isBlank) (ht : Standard item t) (hts : ∀ u ∈ ts, Standard item u) :
    Standard (.list item) (opening ++ ((',' :: inner).intercalate (t :: ts) ++ outer)) := by
  induction ts generalizing opening t with
  | nil =>
    rw [List.intercalate_singleton]
    exact .last hopening houter ht
  | cons u ts ih =>
    have hrest := ih hinner (hts u (List.mem_cons_self ..)) fun v hv =>
      hts v (List.mem_cons_of_mem u hv)
    have hmore := Standard.more hopening (rfl : ([] : List Char).all isBlank) ht hrest
    rw [List.intercalate_cons_cons]
    simpa only [List.append_assoc, List.cons_append, List.nil_append] using hmore

theorem enclosed_standard (indent : Option Int) (level : Nat) (opening closing : String)
    {item : Part} {items : List String} (h : ∀ t ∈ items, Standard item t.toList) :
    ∃ cs, (enclosed indent level opening closing items).toList =
        opening.toList ++ (cs ++ closing.toList) ∧ (cs = [] ∨ Standard (.list item) cs) := by
  cases items with
  | nil => exact ⟨[], enclosed_nil .., .inl rfl⟩
  | cons t ts =>
    obtain ⟨inner, hseparator, hinner⟩ := separator_chars indent (level + 1)
    have hts : ∀ u ∈ ts.map String.toList, Standard item u := by
      intro u hu
      obtain ⟨v, hv, rfl⟩ := List.mem_map.1 hu
      exact h v (List.mem_cons_of_mem t hv)
    have hlist := intercalate_standard (lineBreak_blank indent (level + 1)) hinner
      (lineBreak_blank indent level) (h t (List.mem_cons_self ..)) hts
    refine ⟨_, ?_, .inr hlist⟩
    rw [enclosed_cons, hseparator]
    simp only [List.append_assoc]

theorem array_standard {indent : Option Int} {level : Nat} {items : List String}
    (h : ∀ t ∈ items, Standard .value t.toList) :
    Standard .value (enclosed indent level "[" "]" items).toList := by
  obtain ⟨cs, hcs, hlist⟩ := enclosed_standard indent level "[" "]" h
  rw [hcs]
  rcases hlist with rfl | hlist
  · exact .noItems (rfl : ([] : List Char).all isBlank)
  · exact .items hlist

theorem object_standard {indent : Option Int} {level : Nat} {items : List String}
    (h : ∀ t ∈ items, Standard .member t.toList) :
    Standard .value (enclosed indent level "\x7b" "\x7d" items).toList := by
  obtain ⟨cs, hcs, hlist⟩ := enclosed_standard indent level "\x7b" "\x7d" h
  rw [hcs]
  rcases hlist with rfl | hlist
  · exact .noMembers (rfl : ([] : List Char).all isBlank)
  · exact .members hlist

theorem pair_standard (key : String) {written : String} (h : Standard .value written.toList) :
    Standard .member (quoted key ++ ": " ++ written).toList := by
  have hblank : [' '].all isBlank := by decide
  have hmember := Standard.member (quoted_text key) (rfl : ([] : List Char).all isBlank) hblank h
  rw [String.toList_append, String.toList_append, List.append_assoc]
  exact hmember

mutual

theorem write_standard (indent : Option Int) : ∀ (j : Json) (level : Nat),
    (∀ x ∈ j.numbers, x.isInfinite = false) → Standard .value (j.write indent level).toList
  | null, level, _ => by
    rw [null_chars]
    exact .null
  | bool false, level, _ => by
    rw [(bool_chars indent level).1]
    exact .falsehood
  | bool true, level, _ => by
    rw [(bool_chars indent level).2]
    exact .truth
  | number x, level, h => by
    rw [write]
    exact .number (numeral_finite (h x (by simp [numbers])))
  | text s, level, _ => by
    rw [write]
    exact .text (quoted_text s)
  | array items, level, h => by
    rw [write]
    exact array_standard (writeAll_standard indent items (level + 1) h)
  | object pairs, level, h => by
    rw [write]
    exact object_standard (writePairs_standard indent pairs (level + 1) h)

theorem writeAll_standard (indent : Option Int) : ∀ (js : List Json) (level : Nat),
    (∀ x ∈ numbersAll js, x.isInfinite = false) →
      ∀ t ∈ writeAll indent level js, Standard .value t.toList
  | [], level, _ => List.forall_mem_nil _
  | j :: js, level, h => by
    have hj := List.forall_mem_append.1 h
    rw [writeAll, List.forall_mem_cons]
    exact ⟨write_standard indent j level hj.1, writeAll_standard indent js level hj.2⟩

theorem writePairs_standard (indent : Option Int) : ∀ (pairs : List (String × Json)) (level : Nat),
    (∀ x ∈ numbersPairs pairs, x.isInfinite = false) →
      ∀ t ∈ writePairs indent level pairs, Standard .member t.toList
  | [], level, _ => List.forall_mem_nil _
  | (key, j) :: pairs, level, h => by
    have hj := List.forall_mem_append.1 h
    rw [writePairs, List.forall_mem_cons]
    exact ⟨pair_standard key (write_standard indent j level hj.1),
      writePairs_standard indent pairs level hj.2⟩

end

inductive Mode
  | outside | inside | escaped

def step : Mode × Bool → Char → Mode × Bool
  | (.outside, seen), c => if c = '"' then (.inside, seen) else (.outside, seen || c = 'I')
  | (.inside, seen), c =>
    if c = '"' then (.outside, seen) else if c = '\\' then (.escaped, seen) else (.inside, seen)
  | (.escaped, seen), _ => (.inside, seen)

/-- The part leaves all its texts, and `found` says whether it has the letter outside of them. -/
def Shows (found : Bool) (cs : List Char) : Prop :=
  ∀ seen, cs.foldl step (.outside, seen) = (.outside, seen || found)

theorem Shows.append {a b : Bool} {xs ys : List Char} (hx : Shows a xs) (hy : Shows b ys) :
    Shows (a || b) (xs ++ ys) := by
  intro seen
  rw [List.foldl_append, hx, hy, Bool.or_assoc]

theorem Shows.between {a : Bool} {xs ys zs : List Char} (hy : Shows a ys) (hx : Shows false xs)
    (hz : Shows false zs) : Shows a (xs ++ (ys ++ zs)) := by
  have h := hx.append (hy.append hz)
  rwa [Bool.false_or, Bool.or_false] at h

theorem Shows.unique {a b : Bool} {cs : List Char} (h : Shows a cs) (h' : Shows b cs) : a = b := by
  have heq := (h false).symm.trans (h' false)
  exact congrArg Prod.snd heq

def isDull (c : Char) : Bool := c != '"' && c != 'I'

def Dull (cs : List Char) : Prop := cs.all isDull

theorem Dull.shows {cs : List Char} (h : Dull cs) : Shows false cs := by
  intro seen
  induction cs with
  | nil => rw [Bool.or_false]; rfl
  | cons c cs ih =>
    have hc := Bool.and_eq_true_iff.1 h
    have hne : c ≠ '"' ∧ c ≠ 'I' := by simpa [isDull] using hc.1
    have hstep : step (.outside, seen) c = (.outside, seen) := by simp [step, hne]
    rw [List.foldl_cons, hstep]
    exact ih hc.2

theorem Dull.append {xs ys : List Char} (hx : Dull xs) (hy : Dull ys) : Dull (xs ++ ys) := by
  rw [Dull, List.all_append]
  exact Bool.and_eq_true_iff.2 ⟨hx, hy⟩

theorem Dull.cons {c : Char} {cs : List Char} (hc : isDull c) (h : Dull cs) : Dull (c :: cs) :=
  Bool.and_eq_true_iff.2 ⟨hc, h⟩

theorem dull_of_all {p : Char → Bool} {cs : List Char} (hp : p '"' = false ∧ p 'I' = false)
    (h : cs.all p) : Dull cs := by
  refine List.all_eq_true.2 fun c hc => ?_
  have hpc := List.all_eq_true.1 h c hc
  have hquote : c ≠ '"' := by
    rintro rfl
    exact absurd hpc (Bool.eq_false_iff.1 hp.1)
  have hletter : c ≠ 'I' := by
    rintro rfl
    exact absurd hpc (Bool.eq_false_iff.1 hp.2)
  simp [isDull, hquote, hletter]

theorem dull_digits {cs : List Char} (h : cs.all isDigit) : Dull cs :=
  dull_of_all (by decide) h

theorem dull_blanks {cs : List Char} (h : cs.all isBlank) : Dull cs :=
  dull_of_all (by decide) h

theorem Numeral.dull {cs : List Char} (h : Numeral cs) : Dull cs := by
  have hsigns : ∀ sign ∈ [[], ['+'], ['-']], Dull sign :=
    List.all_eq_true.1 (rfl : [[], ['+'], ['-']].all (·.all isDull))
  obtain @⟨sign, whole, places, exponent, hs, hw, hp, he⟩ := h
  refine .append (hsigns sign ?_) (.append ?_ (.append ?_ ?_))
  · rcases List.mem_pair.1 hs with rfl | rfl <;> decide
  · cases hw with
    | zero => exact dull_digits rfl
    | digits hd _ hds => exact dull_digits (Bool.and_eq_true_iff.2 ⟨hd, hds⟩)
  · cases hp with
    | none => rfl
    | digits hds => exact .cons rfl (dull_digits hds.2)
  · cases he with
    | none => rfl
    | @digits mark sign ds hm hs hds =>
      have hmark : ∀ mark ∈ ['e', 'E'], isDull mark :=
        List.all_eq_true.1 (rfl : ['e', 'E'].all isDull)
      exact .cons (hmark mark hm) (.append (hsigns sign hs) (dull_digits hds.2))

theorem Characters.inside {body : List Char} (h : Characters body) (seen : Bool) :
    body.foldl step (.inside, seen) = (.inside, seen) := by
  have plain {c : Char} (hq : c ≠ '"') (he : c ≠ '\\') :
      step (.inside, seen) c = (.inside, seen) := by simp [step, hq, he]
  induction h with
  | none => rfl
  | plain _ hq he _ ih => rw [List.foldl_cons, plain hq he, ih]
  | letter _ _ ih => exact ih
  | @unit digits cs hlength hd _ ih =>
    have hdigits : digits.foldl step (.inside, seen) = (.inside, seen) := by
      clear ih hlength
      induction digits with
      | nil => rfl
      | cons c digits ihd =>
        have hc := Bool.and_eq_true_iff.1 hd
        have hne : c ≠ '"' ∧ c ≠ '\\' := by
          constructor <;>
          · rintro rfl
            exact absurd hc.1 (by decide)
        rw [List.foldl_cons, plain hne.1 hne.2]
        exact ihd hc.2
    have hstart : ('\\' :: 'u' :: (digits ++ cs)).foldl step (.inside, seen) =
        (digits ++ cs).foldl step (.inside, seen) := rfl
    rw [hstart, List.foldl_append, hdigits, ih]

theorem Text.shows {cs : List Char} (h : Text cs) : Shows false cs := by
  obtain @⟨body, hbody⟩ := h
  intro seen
  have hstart : ('"' :: (body ++ ['"'])).foldl step (.outside, seen) =
      (body ++ ['"']).foldl step (.inside, seen) := rfl
  rw [hstart, List.foldl_append, hbody.inside, Bool.or_false]
  rfl

theorem shows_enclosed {a : Bool} {opening closing : Char} {cs : List Char} (h : Shows a cs)
    (ho : Dull [opening]) (hc : Dull [closing]) : Shows a (opening :: (cs ++ [closing])) :=
  h.between ho.shows hc.shows

theorem Standard.shows {part : Part} {cs : List Char} (h : Standard part cs) :
    Shows false cs := by
  have dull {c : Char} (hc : isDull c) : Dull [c] := .cons hc rfl
  induction h with
  | null | truth | falsehood => exact Dull.shows rfl
  | number hn => exact hn.dull.shows
  | text ht => exact ht.shows
  | noItems hb | noMembers hb =>
    exact shows_enclosed (dull_blanks hb).shows (dull rfl) (dull rfl)
  | items _ ih | members _ ih =>
    exact shows_enclosed ih (dull rfl) (dull rfl)
  | member hk hb hb' _ ih =>
    have hcolon := (dull_blanks hb).append (.cons (rfl : isDull ':') (dull_blanks hb'))
    have h := hk.shows.append (hcolon.shows.append ih)
    simpa only [List.append_assoc, List.cons_append, List.nil_append, Bool.or_false] using h
  | last hb hb' _ ih => exact ih.between (dull_blanks hb).shows (dull_blanks hb').shows
  | more hb hb' _ _ ih ihrest =>
    have hcomma := (dull_blanks hb').append (dull (rfl : isDull ','))
    have h := (dull_blanks hb).shows.append (ih.append (hcomma.shows.append ihrest))
    simpa only [List.append_assoc, List.cons_append, List.nil_append, Bool.or_false] using h

theorem StandardDocument.shows {cs : List Char} (h : StandardDocument cs) : Shows false cs := by
  cases h with
  | value hb hb' hv => exact hv.shows.between (dull_blanks hb).shows (dull_blanks hb').shows

theorem numeral_shows (x : Number) : Shows x.isInfinite (numeral x).toList := by
  cases x with
  | finite negative m => exact (numeral_finite rfl).dull.shows
  | infinite negative =>
    intro seen
    cases negative <;> cases seen <;> rfl

theorem separator_shows (indent : Option Int) (level : Nat) :
    Shows false (separator indent level).toList := by
  obtain ⟨inner, hseparator, hinner⟩ := separator_chars indent level
  rw [hseparator]
  exact (Dull.cons rfl (dull_blanks hinner)).shows

theorem enclosed_shows {indent : Option Int} {level : Nat} {opening closing : String}
    {items : List String} {a : Bool} (ho : Dull opening.toList) (hc : Dull closing.toList)
    (h : Shows a ((separator indent (level + 1)).toList.intercalate (items.map String.toList))) :
    Shows a (enclosed indent level opening closing items).toList := by
  have hbreak (level : Nat) := dull_blanks (lineBreak_blank indent level)
  cases items with
  | nil =>
    have hnone : a = false := h.unique (Dull.shows rfl)
    rw [enclosed_nil, hnone]
    exact (ho.append hc).shows
  | cons t ts =>
    rw [enclosed_cons, ← List.append_assoc]
    exact h.between (ho.append (hbreak (level + 1))).shows ((hbreak level).append hc).shows

theorem pair_shows (key : String) {written : String} {a : Bool} (h : Shows a written.toList) :
    Shows a (quoted key ++ ": " ++ written).toList := by
  have hcolon : Dull ": ".toList := rfl
  have hpair := (quoted_text key).shows.append (hcolon.shows.append h)
  rw [String.toList_append, String.toList_append, List.append_assoc]
  rwa [Bool.false_or, Bool.false_or] at hpair

mutual

theorem write_shows (indent : Option Int) : ∀ (j : Json) (level : Nat),
    Shows (j.numbers.any Number.isInfinite) (j.write indent level).toList
  | null, level => by
    rw [null_chars]
    exact Standard.null.shows
  | bool false, level => by
    rw [(bool_chars indent level).1]
    exact Standard.falsehood.shows
  | bool true, level => by
    rw [(bool_chars indent level).2]
    exact Standard.truth.shows
  | number x, level => by
    rw [write, numbers, List.any_cons, List.any_nil, Bool.or_false]
    exact numeral_shows x
  | text s, level => by
    rw [write]
    exact (quoted_text s).shows
  | array items, level => by
    rw [write]
    exact enclosed_shows rfl rfl
      (writeAll_shows indent (separator_shows indent (level + 1)) items (level + 1))
  | object pairs, level => by
    rw [write]
    exact enclosed_shows rfl rfl
      (writePairs_shows indent (separator_shows indent (level + 1)) pairs (level + 1))

theorem writeAll_shows (indent : Option Int) {separator : List Char} (hs : Shows false separator) :
    ∀ (js : List Json) (level : Nat), Shows ((numbersAll js).any Number.isInfinite)
      (separator.intercalate ((writeAll indent level js).map String.toList))
  | [], level => Dull.shows rfl
  | [j], level => by
    have hj := write_shows indent j level
    simpa only [writeAll, numbersAll, List.map_cons, List.map_nil, List.append_nil,
      List.intercalate_singleton] using hj
  | j :: k :: js, level => by
    have h := (write_shows indent j level).append
      (hs.append (writeAll_shows indent hs (k :: js) level))
    rw [Bool.false_or, ← List.any_append] at h
    simpa only [writeAll, numbersAll, List.map_cons, List.intercalate_cons_cons,
      List.append_assoc] using h

theorem writePairs_shows (indent : Option Int) {separator : List Char}
    (hs : Shows false separator) : ∀ (pairs : List (String × Json)) (level : Nat),
    Shows ((numbersPairs pairs).any Number.isInfinite)
      (separator.intercalate ((writePairs indent level pairs).map String.toList))
  | [], level => Dull.shows rfl
  | [(key, j)], level => by
    have hj := pair_shows key (write_shows indent j level)
    simpa only [writePairs, numbersPairs, List.map_cons, List.map_nil, List.append_nil,
      List.intercalate_singleton] using hj
  | (key, j) :: p :: pairs, level => by
    have hj := pair_shows key (write_shows indent j level)
    have h := hj.append (hs.append (writePairs_shows indent hs (p :: pairs) level))
    rw [Bool.false_or, ← List.any_append] at h
    simpa only [writePairs, numbersPairs, List.map_cons, List.intercalate_cons_cons,
      List.append_assoc] using h

end

theorem standard_document (indent : Option Int) (j : Json) :
    StandardDocument (j.document indent).toList ↔ ∀ x ∈ j.numbers, x.isInfinite = false := by
  constructor
  · intro h
    have hnone := (write_shows indent j 0).unique h.shows
    simpa using hnone
  · intro h
    have hwritten := StandardDocument.value (rfl : ([] : List Char).all isBlank)
      (rfl : ([] : List Char).all isBlank) (write_standard indent j 0 h)
    rwa [List.nil_append, List.append_nil] at hwritten

end Json

end RuleLang
