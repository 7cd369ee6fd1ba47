import RuleLang.Proofs.Calls
import RuleLang.Proofs.Seam

/-!
Exact places. Where a cursor stands in a text can be counted without reading: its line by the line
feeds that it has passed, its column from the last of them. A lexer, whatever is asked of it, stands
in such a place, finds its tokens in such places and reports its errors there.
-/
namespace RuleLang

open Alphabet RuleLang.Parser

namespace Position

theorem column_afterAll {cs : List Char} (h : lineFeed ∉ cs) (p : Position) :
    (p.afterAll cs).column = p.column + cs.length := by
  induction cs generalizing p with
  | nil => simp
  | cons c cs ih =>
    obtain ⟨hc, hcs⟩ := not_or.1 (List.mem_cons.not.1 h)
    have hafter : (p.after c).column = p.column + 1 := by
      rw [after, if_neg (show c ≠ '\n' from Ne.symm hc)]
    rw [afterAll_cons, ih hcs, hafter, List.length_cons]
    omega

theorem column_afterAll_line {cs : List Char} (h : lineFeed ∉ cs) (before : List Char)
    (p : Position) : (p.afterAll (before ++ lineFeed :: cs)).column = cs.length := by
  have hafter (q : Position) : (q.after lineFeed).column = 0 := rfl
  rw [afterAll_append, afterAll_cons, column_afterAll h, hafter]
  omega

end Position

/-- A text that is read from an index on, to which a place is given. -/
structure Excerpt where
  source : List Char
  origin : Nat
  start : Position

namespace Excerpt

def whole (source : List Char) : Excerpt := ⟨source, 0, .start⟩

variable (e : Excerpt)

def cursor : Cursor := .within e.source e.origin e.start

def passed (i : Nat) : List Char := (e.source.take i).drop e.origin

/-- The place that belongs to an index, by the line feeds before it. -/
structure Place (i : Nat) (p : Position) : Prop where
  line : p.line = e.start.line + (e.passed i).count lineFeed
  first : lineFeed ∉ e.passed i → p.column = e.start.column + ((i : Int) - e.origin)
  later {j : Nat} : e.origin ≤ j → j < i → e.source[j]? = some lineFeed →
    lineFeed ∉ (e.source.take i).drop (j + 1) → p.column = (i : Int) - 1 - j

/-- A cursor in its exact place, never behind the end of the text unless it began there. -/
structure Holds (c : Cursor) : Prop where
  rest : c.rest = e.source.drop c.offset
  least : e.origin ≤ c.offset
  most : e.origin ≤ e.source.length → c.offset ≤ e.source.length
  beyond : e.source.length < e.origin → c.offset = e.origin
  place : e.Place c.offset c.position

/-- A token that is spelled in the text, with the exact place of its first character. -/
def Finds (t : Token) : Prop :=
  ∃ i x behind, e.origin ≤ i ∧ e.source.drop i = x ++ behind ∧ Spelling x t.lexeme ∧
    t.lexeme.Ends x behind ∧ e.Place i t.position

/-- A token that is found, or the minus one that stands for a sign in the place of one. -/
def Bears (t : Token) : Prop :=
  e.Finds t ∨ ∃ sign, e.Finds sign ∧ t = ⟨.number .minusOne, sign.position⟩

/-- A syntax error in the exact place of an index, the end included. -/
def Blames (f : Failure) : Prop :=
  ∃ p cause i, f = .malformed ⟨p, cause⟩ ∧ e.origin ≤ i ∧ (i = e.origin ∨ i ≤ e.source.length) ∧
    e.Place i p

variable {e}

theorem offset_advance (n : Nat) : (e.cursor.advance n).offset =
    e.origin + min n (e.source.length - e.origin) := by
  simp [cursor, Cursor.within, Cursor.advance]

theorem passed_offset (n : Nat) :
    e.passed (e.cursor.advance n).offset = (e.source.drop e.origin).take n := by
  rw [passed, List.drop_take, offset_advance, Nat.add_sub_cancel_left, ← List.length_drop]
  exact List.take_eq_take_min.symm

theorem passed_line {i j : Nat} (hj : e.origin ≤ j) (hlt : j < i)
    (hline : e.source[j]? = some lineFeed) :
    e.passed i = e.passed j ++ lineFeed :: (e.source.take i).drop (j + 1) := by
  obtain ⟨hlength, hline⟩ := List.getElem?_eq_some_iff.1 hline
  have htake : (e.source.take i).take j = e.source.take j := by
    rw [List.take_take, Nat.min_eq_left (Nat.le_of_lt hlt)]
  have hle : e.origin ≤ (e.source.take j).length := by
    rw [List.length_take]
    omega
  have hlt' : j < (e.source.take i).length := by
    rw [List.length_take]
    omega
  calc e.passed i
    _ = ((e.source.take i).take j ++ (e.source.take i).drop j).drop e.origin := by
      rw [List.take_append_drop, passed]
    _ = e.passed j ++ (e.source.take i).drop j := by
      rw [htake, List.drop_append_of_le_length hle, passed]
    _ = e.passed j ++ lineFeed :: (e.source.take i).drop (j + 1) := by
      rw [List.drop_eq_getElem_cons hlt', List.getElem_take, hline]

theorem place_advance (n : Nat) :
    e.Place (e.cursor.advance n).offset (e.cursor.advance n).position := by
  have hpassed := e.passed_offset n
  have hoffset := e.offset_advance n
  have hposition : (e.cursor.advance n).position =
      e.start.afterAll (e.passed (e.cursor.advance n).offset) := by
    rw [hpassed]
    rfl
  rw [hposition]
  generalize (e.cursor.advance n).offset = i at hpassed hoffset
  refine ⟨Position.line_afterAll _ _, fun h => ?_, fun {j} hj hlt hline hlast => ?_⟩
  · rw [Position.column_afterAll h, hpassed]
    simp only [List.length_take, List.length_drop]
    omega
  · have hlength := (List.getElem?_eq_some_iff.1 hline).1
    rw [e.passed_line hj hlt hline, Position.column_afterAll_line hlast]
    simp only [List.length_drop, List.length_take]
    omega

theorem place_split {source before behind : List Char} (h : source = before ++ behind) :
    (whole source).Place before.length (Position.start.afterAll before) := by
  have hrest : (whole source).cursor.rest = before ++ behind := h
  have hoffset : ((whole source).cursor.advance before.length).offset = before.length := by
    rw [offset_advance]
    simp [whole, h]
  have hplace := place_advance (e := whole source) before.length
  rwa [hoffset, position_advance hrest] at hplace

theorem holds_advance (n : Nat) : e.Holds (e.cursor.advance n) := by
  have hoffset := e.offset_advance n
  refine ⟨?_, by omega, by omega, by omega, place_advance n⟩
  have hrest : (e.cursor.advance n).rest = e.source.drop (e.origin + n) := List.drop_drop
  rw [hrest, hoffset]
  rcases Nat.le_total n (e.source.length - e.origin) with h | h
  · rw [Nat.min_eq_left h]
  · rw [Nat.min_eq_right h, List.drop_eq_nil_of_le (by omega), List.drop_eq_nil_of_le (by omega)]

end Excerpt

def Gives {σ α : Type} (V : α → Prop) (E : Failure → Prop) (S : σ → Prop) :
    EStateM.Result Failure σ α → Prop
  | .ok a s => V a ∧ S s
  | .error f s => E f ∧ S s

theorem Gives.bind {σ α β : Type} {V : α → Prop} {W : β → Prop} {E : Failure → Prop}
    {S : σ → Prop} {p : Parser σ α} {f : α → Parser σ β} {s : σ} (h : Gives V E S (p s))
    (hf : ∀ a s, V a → S s → Gives W E S (f a s)) : Gives W E S ((p >>= f) s) := by
  simp only [Bind.bind, EStateM.bind]
  cases hp : p s with
  | ok a s' =>
    rw [hp] at h
    exact hf a s' h.1 h.2
  | error x s' =>
    rw [hp] at h
    exact h

theorem Gives.mono {σ α : Type} {V W : α → Prop} {E F : Failure → Prop} {S : σ → Prop}
    {r : EStateM.Result Failure σ α} (h : Gives V E S r) (hv : ∀ a, V a → W a)
    (hf : ∀ f, E f → F f) : Gives W F S r := by
  cases r with
  | ok a s => exact ⟨hv a h.1, h.2⟩
  | error f s => exact ⟨hf f h.1, h.2⟩

theorem Gives.map {σ α β : Type} {V : α → Prop} {W : β → Prop} {E : Failure → Prop} {S : σ → Prop}
    {p : Parser σ α} {f : α → β} {s : σ} (h : Gives V E S (p s)) (hf : ∀ a, V a → W (f a)) :
    Gives W E S ((f <$> p) s) := by
  rw [map_eq_pure_bind]
  exact h.bind fun a _ ha hs => ⟨hf a ha, hs⟩

namespace Excerpt

variable {e : Excerpt} {least : Nat}

structure Stands (e : Excerpt) (least : Nat) (c : Cursor) : Prop where
  moved : ∃ n, c = e.cursor.advance n
  least : least ≤ c.offset

namespace Stands

variable {c : Cursor}

theorem holds (h : e.Stands least c) : e.Holds c := by
  obtain ⟨⟨n, rfl⟩, -⟩ := h
  exact holds_advance n

theorem advance (h : e.Stands least c) (n : Nat) : e.Stands least (c.advance n) := by
  obtain ⟨⟨m, rfl⟩, hleast⟩ := h
  exact ⟨⟨m + n, Cursor.advance_advance _ _ _⟩, Nat.le_trans hleast (Cursor.offset_le_advance _ _)⟩

theorem finds (h : e.Stands least c) {gap x behind : List Char} {y : Lexeme}
    (hc : c.rest = gap ++ x ++ behind) (hx : Spelling x y) (he : y.Ends x behind) :
    e.Finds ⟨y, c.position.afterAll gap⟩ := by
  rw [List.append_assoc] at hc
  have hat := (h.advance gap.length).holds
  rw [← position_advance hc]
  exact ⟨_, x, behind, hat.least, hat.rest.symm.trans (rest_advance hc), hx, he, hat.place⟩

theorem blames (h : e.Stands least c) (cause : Cause) :
    e.Blames (.malformed ⟨c.position, cause⟩) := by
  have hc := h.holds
  refine ⟨_, cause, c.offset, rfl, hc.least, ?_, hc.place⟩
  rcases Nat.lt_or_ge e.source.length e.origin with h | h
  · exact .inl (hc.beyond h)
  · exact .inr (hc.most h)

theorem readToken (h : e.Stands least c) :
    Gives (fun t => ∀ x ∈ t, e.Finds x) e.Blames (e.Stands least) (Lexer.readToken c) := by
  have hnext := nextToken c
  generalize Lexer.readToken c = r at hnext
  cases hnext with
  | final => exact ⟨nofun, h.advance _⟩
  | token hc _ hx he => exact ⟨fun t ht => Option.some.inj ht ▸ h.finds hc hx he, h.advance _⟩
  | illegal hc =>
    rw [← position_advance hc]
    exact ⟨(h.advance _).blames _, h.advance _⟩
  | unterminated hc =>
    rw [← position_advance hc]
    exact ⟨(h.advance _).blames _, h.advance _⟩

end Stands

theorem Finds.blames {t : Token} (h : e.Finds t) (cause : Cause) :
    e.Blames (.malformed ⟨t.position, cause⟩) := by
  obtain ⟨i, x, behind, hi, hdrop, hx, -, hplace⟩ := h
  obtain ⟨first, xs, rfl, -⟩ := hx.start
  have hlength := congrArg List.length hdrop
  simp only [List.length_drop, List.length_append, List.length_cons] at hlength
  exact ⟨_, cause, i, rfl, hi, .inr (by omega), hplace⟩

theorem Bears.blames {t : Token} (h : e.Bears t) (cause : Cause) :
    e.Blames (.malformed ⟨t.position, cause⟩) := by
  rcases h with h | ⟨sign, h, rfl⟩
  · exact h.blames cause
  · exact h.blames cause

structure Serves (e : Excerpt) (least : Nat) (l : Lexer) : Prop where
  cursor : e.Stands least l.cursor
  lookahead : ∀ t ∈ l.lookahead, e.Finds t

namespace Serves

variable {l : Lexer}

theorem reading {α : Type} {V : α → Prop} {E : Failure → Prop} {r : Lexer.Reading α}
    (h : e.Serves least l) (hr : Gives V E (e.Stands least) (r l.cursor)) :
    Gives V E (e.Serves least) (Lexer.reading r l) := by
  unfold Lexer.reading
  cases hl : r l.cursor with
  | ok a c' =>
    rw [hl] at hr
    exact ⟨hr.1, hr.2, h.lookahead⟩
  | error f c' =>
    rw [hl] at hr
    exact ⟨hr.1, hr.2, h.lookahead⟩

theorem peek (h : e.Serves least l) : Gives (fun t => ∀ x ∈ t, e.Finds x) e.Blames
    (e.Serves least) (Lexer.peek l) := by
  obtain ⟨c, _ | t⟩ := l
  · have hread := h.cursor.readToken
    rw [Lexer.peek_eq]
    cases hr : Lexer.readToken c with
    | ok t c' =>
      rw [hr] at hread
      exact ⟨hread.1, hread.2, hread.1⟩
    | error f c' =>
      rw [hr] at hread
      exact ⟨hread.1, hread.2, nofun⟩
  · exact ⟨h.lookahead, h⟩

theorem next (h : e.Serves least l) : Gives (fun t => ∀ x ∈ t, e.Finds x) e.Blames
    (e.Serves least) (Lexer.next l) := by
  obtain ⟨c, _ | t⟩ := l
  · exact h.reading h.cursor.readToken
  · exact ⟨h.lookahead, h.cursor, nofun⟩

theorem fail (h : e.Serves least l) (cause : Cause) :
    e.Blames (.malformed ⟨l.here, cause⟩) := by
  obtain ⟨c, _ | t⟩ := l
  · exact h.cursor.blames cause
  · exact (h.lookahead t rfl).blames cause

theorem expect (h : e.Serves least l) (wanted : Lexeme → Bool) (cause : Cause) :
    Gives e.Finds e.Blames (e.Serves least) (Parser.expect wanted cause l) := by
  refine .bind h.peek fun t l ht hl => ?_
  cases t with
  | none => exact ⟨hl.fail cause, hl⟩
  | some t =>
    dsimp only
    split
    · exact .bind hl.next fun _ l _ hl => ⟨ht t rfl, hl⟩
    · exact ⟨hl.fail cause, hl⟩

end Serves

theorem same_name {a b c d : String} (hab : a = b) (hcd : c = d) : a = c ↔ b = d :=
  (Correspondence.within fun _ => True).sameName hab hcd

def correspondence (e : Excerpt) : Correspondence where
  token t u := t = u ∧ e.Bears t
  name := Eq
  lexeme h := by
    rw [h.1]
    exact .refl (fun _ => rfl) _
  minusOne h := by
    obtain ⟨rfl, h | ⟨sign, h, rfl⟩⟩ := h
    · exact ⟨rfl, .inr ⟨_, h, rfl⟩⟩
    · exact ⟨rfl, .inr ⟨_, h, rfl⟩⟩
  sameName := @same_name

theorem correspondence_rel {t : Option Token} (h : ∀ x ∈ t, e.Finds x) :
    Option.Rel e.correspondence.token t t := by
  cases t with
  | none => exact .none
  | some t => exact .some ⟨rfl, .inl (h t rfl)⟩

def simulation (e : Excerpt) (least : Nat) : Simulation e.correspondence Lexer Lexer where
  state _ l m := l = m ∧ e.Serves least l
  stopped f g l m := f = g ∧ l = m ∧ e.Blames f ∧ e.Serves least l
  forget h := h
  peek {_ l m} h := by
    obtain ⟨rfl, hl⟩ := h
    have hpeek := hl.peek
    change Agree _ _ _ (Lexer.peek l) (Lexer.peek l)
    generalize Lexer.peek l = r at hpeek
    cases r with
    | ok t l' => exact ⟨correspondence_rel hpeek.1, rfl, hpeek.2⟩
    | error f l' => exact .inr ⟨rfl, rfl, hpeek⟩
  next {_ l m} h := by
    obtain ⟨rfl, hl⟩ := h
    have hnext := hl.next
    change Agree _ _ _ (Lexer.next l) (Lexer.next l)
    generalize Lexer.next l = r at hnext
    cases r with
    | ok t l' => exact ⟨correspondence_rel hnext.1, rfl, hnext.2⟩
    | error f l' => exact .inr ⟨rfl, rfl, hnext⟩
  fail h hxy _ := by
    obtain ⟨rfl, hl⟩ := h
    rw [Cause.eq_of_lexeme (fun ht => by rw [ht.1]) hxy]
    exact ⟨rfl, rfl, hl.fail _, hl⟩
  refuse h hxy hab := by
    obtain ⟨rfl, hl⟩ := h
    obtain ⟨rfl, ht⟩ := hxy
    obtain rfl : _ = _ := hab
    exact ⟨rfl, rfl, ht.blames _, hl⟩
  tooDeep h := by
    obtain ⟨rfl, hl⟩ := h
    exact ⟨rfl, rfl, hl.fail _, hl⟩

theorem Serves.run {α : Type} {V : α → α → Prop} {l : Lexer} (h : e.Serves least l)
    {p : Parser Lexer α} (hp : Lockstep e.correspondence Lexer Lexer false V p p)
    (hx : ∀ l', p l ≠ .error .exhausted l') :
    Gives (fun a => V a a) e.Blames (e.Serves least) (p l) := by
  rcases ((e.simulation least).run hp ⟨rfl, h⟩).outcomes hx with
    ⟨a, l', b, m, hl, hm, hab, rfl, hleft⟩ | ⟨f, l', g, m, hl, hm, rfl, rfl, hblames, hleft⟩
  · obtain ⟨rfl, -⟩ := EStateM.Result.ok.inj (hl.symm.trans hm)
    rw [hl]
    exact ⟨hab, hleft⟩
  · rw [hl]
    exact ⟨hblames, hleft⟩

end Excerpt

end RuleLang
