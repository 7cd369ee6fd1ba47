import RuleLang.Proofs.Concatenation
import RuleLang.Proofs.Places

/-!
How reading fails. A source is refused with a syntax error and in no other way, and the error
stands in the exact place of a character or of the end. A number is the longest run of digits with
at most one point among them; a run that has no digit is refused in another way, but no token
begins with it.
-/
namespace RuleLang

open Alphabet RuleLang.Parser

structure Numeral (run : List Char) : Prop where
  made : ∀ c ∈ run, isDigit c ∨ c = point
  points : run.count point ≤ 1

/-- The longest numeral that a text begins with. -/
structure LongestNumeral (cs run behind : List Char) : Prop where
  split : cs = run ++ behind
  numeral : Numeral run
  longest {more : List Char} : more <+: cs → Numeral more → more.length ≤ run.length

theorem not_isDigit_point : ¬ isDigit point := by decide

theorem count_point {ds : List Char} (h : ds.all isDigit) : ds.count point = 0 :=
  List.count_eq_zero.2 fun hp => not_isDigit_point (List.all_eq_true.1 h _ hp)

theorem Numeral.whole {ds : List Char} (h : ds.all isDigit) : Numeral ds where
  made _ hc := .inl (List.all_eq_true.1 h _ hc)
  points := by rw [count_point h]; exact Nat.zero_le 1

theorem Numeral.pointed {ds places : List Char} (hds : ds.all isDigit)
    (hps : places.all isDigit) : Numeral (ds ++ point :: places) where
  made c hc := by
    rcases List.mem_append.1 hc with hc | hc
    · exact .inl (List.all_eq_true.1 hds c hc)
    · exact (List.mem_cons.1 hc).symm.imp_left (List.all_eq_true.1 hps c)
  points := by
    have hcount : (ds ++ point :: places).count point =
        ds.count point + (places.count point + 1) := by
      rw [List.count_append, List.count_cons_self]
    rw [count_point hds, count_point hps] at hcount
    exact Nat.le_of_eq hcount

theorem LongestNumeral.of_stop {cs run behind : List Char} (hcs : cs = run ++ behind)
    (h : Numeral run) (hb : ∀ c ∈ behind.head?, ¬ isDigit c ∧ (c = point → point ∈ run)) :
    LongestNumeral cs run behind where
  split := hcs
  numeral := h
  longest {more} hpre hmore := by
    by_contra hlt
    subst hcs
    have hrun : run <+: more :=
      List.prefix_of_prefix_length_le (List.prefix_append run behind) hpre (by omega)
    obtain ⟨tail, rfl⟩ := hrun
    cases tail with
    | nil =>
      rw [List.append_nil] at hlt
      omega
    | cons d tail =>
      -- the character behind the run would have to be a second point
      obtain ⟨rest, rfl⟩ := (List.prefix_append_right_inj run).1 hpre
      obtain ⟨hd, hp⟩ := hb d rfl
      have hmem : d ∈ run ++ d :: tail := by simp
      obtain rfl := (hmore.made d hmem).resolve_left hd
      have hcount := hmore.points
      rw [List.count_append, List.count_cons_self] at hcount
      have hpos := List.count_pos_iff.2 (hp rfl)
      omega

theorem numeralRun_longest (cs : List Char) :
    ∃ behind, LongestNumeral cs (Lexer.numeralRun cs) behind := by
  obtain ⟨ds, rest, rfl, hds, hrest⟩ := run_split isDigit cs
  by_cases hp : rest.head? = some point
  · obtain ⟨rest, rfl⟩ := List.head?_eq_some_iff.1 hp
    obtain ⟨places, behind, rfl, hps, hbehind⟩ := run_split isDigit rest
    rw [numeralRun_pointed hds hps hbehind]
    exact ⟨behind, .of_stop (by simp) (.pointed hds hps) fun c hc => ⟨hbehind c hc, by simp⟩⟩
  · have hstop : ∀ c ∈ rest.head?, ¬ isDigit c ∧ c ≠ point :=
      fun c hc => ⟨hrest c hc, fun hcp => hp (hcp ▸ hc)⟩
    rw [numeralRun_whole hds hstop]
    exact ⟨rest, .of_stop rfl (.whole hds) fun c hc =>
      ⟨hrest c hc, fun hcp => absurd hcp (hstop c hc).2⟩⟩

namespace Numeral

variable {run : List Char}

theorem shape (h : Numeral run) : run.all isDigit ∨
    ∃ ds places, run = ds ++ point :: places ∧ ds.all isDigit ∧ places.all isDigit := by
  obtain ⟨ds, rest, rfl, hds, hrest⟩ := run_split isDigit run
  cases rest with
  | nil => exact .inl (by rwa [List.append_nil])
  | cons c places =>
    obtain rfl := (h.made c (by simp)).resolve_left (hrest c rfl)
    refine .inr ⟨ds, places, rfl, hds, List.all_eq_true.2 fun c hc => ?_⟩
    refine (h.made c (by simp [hc])).resolve_right fun hcp => ?_
    subst hcp
    have hcount := h.points
    rw [List.count_append, List.count_cons_self] at hcount
    have hpos := List.count_pos_iff.2 hc
    omega

theorem no_digit_iff (h : Numeral run) :
    (∀ c ∈ run, ¬ isDigit c) ↔ run = [] ∨ run = [point] := by
  constructor
  · intro hno
    rcases h.shape with hall | ⟨ds, places, rfl, hds, hps⟩
    · exact .inl (List.eq_nil_iff_forall_not_mem.2 fun c hc =>
        hno c hc (List.all_eq_true.1 hall c hc))
    · obtain rfl : ds = [] := List.eq_nil_iff_forall_not_mem.2 fun c hc =>
        hno c (by simp [hc]) (List.all_eq_true.1 hds c hc)
      obtain rfl : places = [] := List.eq_nil_iff_forall_not_mem.2 fun c hc =>
        hno c (by simp [hc]) (List.all_eq_true.1 hps c hc)
      exact .inr rfl
  · rintro (rfl | rfl)
    · exact List.forall_mem_nil _
    · exact List.forall_mem_singleton.2 not_isDigit_point

theorem value (h : Numeral run) (hno : ¬ ∀ c ∈ run, ¬ isDigit c) :
    ∃ d, Decimal.ofNumeral? run = some d := by
  rw [h.no_digit_iff, not_or] at hno
  rcases h.shape with hall | ⟨ds, places, rfl, hds, hps⟩
  · exact ⟨_, Lexer.ofNumeral?_whole hno.1 hall⟩
  · have hne : ds ++ places ≠ [] := by
      intro hnil
      obtain ⟨rfl, rfl⟩ := List.append_eq_nil_iff.1 hnil
      exact hno.2 rfl
    have hs := Lexer.span_run ds hds (point :: places) (by simp [not_isDigit_point])
    rw [Decimal.ofNumeral?, hs.1, hs.2]
    exact ⟨_, if_pos ⟨rfl, hps, hne⟩⟩

theorem no_value (h : Numeral run) (hno : ∀ c ∈ run, ¬ isDigit c) :
    Decimal.ofNumeral? run = none := by
  rcases h.no_digit_iff.1 hno with rfl | rfl <;> rfl

end Numeral

/-- Reading a number takes the longest numeral, and fails if that has no digit. -/
structure ReadsNumber (c : Cursor) (run behind : List Char) : Prop where
  longest : LongestNumeral c.rest run behind
  value : (∃ x ∈ run, isDigit x) → ∃ x, Lexer.readNumber c = .ok x (c.advance run.length)
  refused : (∀ x ∈ run, ¬ isDigit x) →
    Lexer.readNumber c = .error (.notANumber (String.ofList run)) (c.advance run.length)
  lone : (∀ x ∈ run, ¬ isDigit x) ↔ run = [] ∨ run = [point]

theorem readsNumber (c : Cursor) : ∃ run behind, ReadsNumber c run behind := by
  obtain ⟨behind, hrun⟩ := numeralRun_longest c.rest
  have hread := Lexer.readNumber_eq c
  dsimp only at hread
  generalize Lexer.numeralRun c.rest = run at hrun hread
  refine ⟨run, behind, hrun, fun ⟨x, hx, hd⟩ => ?_, fun hno => ?_, hrun.numeral.no_digit_iff⟩
  · obtain ⟨d, hd⟩ := hrun.numeral.value fun hno => hno x hx hd
    rw [hread, hd]
    exact ⟨_, rfl⟩
  · rw [hread, hrun.numeral.no_value hno]

namespace Excerpt

theorem blames_split {source before behind : List Char} (h : source = before ++ behind)
    (cause : Cause) :
    (whole source).Blames (.malformed ⟨Position.start.afterAll before, cause⟩) := by
  have hstart : (whole source).Stands 0 (whole source).cursor :=
    ⟨⟨0, (Cursor.advance_zero _).symm⟩, Nat.le_refl _⟩
  have hrest : (whole source).cursor.rest = before ++ behind := h
  have hblames := (hstart.advance before.length).blames cause
  rwa [position_advance hrest] at hblames

end Excerpt

theorem tokenize_blames {source : List Char} {f : Failure} (h : tokenize source = .error f) :
    (Excerpt.whole source).Blames f := by
  obtain ⟨ts, p, gap, rest, cause, hm, -, -, rfl⟩ := munches_of_tokenize_error h
  obtain ⟨taken, hsource, rfl⟩ := hm.taken
  rw [← List.append_assoc] at hsource
  rw [← Position.afterAll_append]
  exact Excerpt.blames_split hsource cause

theorem program_blames {limit : Nat} {source : List Char} {f : Failure} {l : Lexer}
    (h : program limit (Lexer.ofChars source) = .error f l) :
    (Excerpt.whole source).Blames f := by
  have hstart : (Excerpt.whole source).Serves 0 (Lexer.ofChars source) :=
    ⟨⟨⟨0, (Cursor.advance_zero _).symm⟩, Nat.le_refl _⟩, nofun⟩
  have hlock : Lockstep (Excerpt.whole source).correspondence Lexer Lexer false _ _ _ :=
    program_lockstep (Nat.le_refl (TokenSource.size (Lexer.ofChars source) + 1)) limit
  have hrun : Gives _ _ _ (statements _ _ (Lexer.ofChars source)) :=
    hstart.run hlock (program_lexer_not_exhausted limit source)
  rw [show statements _ _ (Lexer.ofChars source) = .error f l from h] at hrun
  exact hrun.1

theorem parse_blames {source : List Char} {f : Failure} (h : parse source = .error f) :
    (Excerpt.whole source).Blames f := by
  unfold parse at h
  cases hp : program nestingLimit (Lexer.ofChars source) with
  | ok nodes l =>
    rw [hp] at h
    cases h
  | error g l =>
    rw [hp] at h
    cases h
    exact program_blames hp

/-- A source is tokenized and parsed, or refused with a syntax error in the exact place of one of
its characters or of its end. Reading a number takes the longest run of digits with at most one
point and is refused if no digit is among them, which reading a token never is. -/
theorem failures_placed :
    (∀ source f, tokenize source = .error f → (Excerpt.whole source).Blames f) ∧
    (∀ source f, parse source = .error f → (Excerpt.whole source).Blames f) ∧
    (∀ c, ∃ run behind, ReadsNumber c run behind) ∧
    ∀ c c' text, Lexer.readToken c ≠ .error (.notANumber text) c' := by
  refine ⟨fun _ _ h => tokenize_blames h, fun _ _ h => parse_blames h, readsNumber,
    fun c c' text h => ?_⟩
  obtain ⟨p, cause, he, -⟩ := Lexer.readToken_error h
  cases he

theorem failures_placed_point :
    parse ['\n', '.'] = .error (.malformed ⟨⟨2, 0⟩, .illegalCharacter '.'⟩) ∧
      (Excerpt.whole ['\n', '.']).Blames (.malformed ⟨⟨2, 0⟩, .illegalCharacter '.'⟩) ∧
      Lexer.readNumber (.ofChars ['.']) = .error (.notANumber ".") ⟨[], 1, ⟨1, 1⟩⟩ := by
  have hparse : parse ['\n', '.'] = .error (.malformed ⟨⟨2, 0⟩, .illegalCharacter '.'⟩) := rfl
  exact ⟨hparse, failures_placed.2.1 _ _ hparse, rfl⟩

end RuleLang
