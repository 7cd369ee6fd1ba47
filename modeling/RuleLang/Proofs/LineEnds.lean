import Mathlib.Data.List.Forall2
import RuleLang.Proofs.AllOrNothing

/-!
Line ends of source files. Whichever way the lines of a file are ended, the text that is read from
it is the same. So two file systems that differ only in the line ends of one file stay so in every
step of the command, and are shown, told and given the same; and the command does to a file what it
does to the text that the file stands for.
-/
namespace RuleLang

namespace Text

/-- A text may end its lines with line feeds, with a carriage return before those line feeds that
are chosen by their places, or with carriage returns alone. -/
inductive LineEnds
  | feeds
  | pairs (chosen : Nat → Bool)
  | returns

namespace LineEnds

def spelled : LineEnds → Nat → List Char
  | feeds, _ => ['\n']
  | pairs chosen, i => if chosen i then ['\r', '\n'] else ['\n']
  | returns, _ => ['\r']

def writeFrom (e : LineEnds) : Nat → List Char → List Char
  | _, [] => []
  | i, c :: cs => (if c = '\n' then e.spelled i else [c]) ++ writeFrom e (i + 1) cs

def write (e : LineEnds) (cs : List Char) : List Char := e.writeFrom 0 cs

theorem writeFrom_feed (e : LineEnds) (i : Nat) (cs : List Char) :
    e.writeFrom i ('\n' :: cs) = e.spelled i ++ e.writeFrom (i + 1) cs := rfl

theorem writeFrom_cons (e : LineEnds) (i : Nat) {c : Char} (h : c ≠ '\n') (cs : List Char) :
    e.writeFrom i (c :: cs) = c :: e.writeFrom (i + 1) cs := by
  rw [writeFrom, if_neg h]
  rfl

end LineEnds

theorem unifyLineEnds_cons {c : Char} (h : c ≠ '\r') (cs : List Char) :
    unifyLineEnds (c :: cs) = c :: unifyLineEnds cs := by
  rw [unifyLineEnds]
  · exact fun _ hc => absurd hc h
  · exact fun hc => absurd hc h

theorem unifyLineEnds_return {cs : List Char} (h : cs.head? ≠ some '\n') :
    unifyLineEnds ('\r' :: cs) = '\n' :: unifyLineEnds cs := by
  rw [unifyLineEnds]
  rintro rest rfl
  exact h rfl

theorem head_returns (i : Nat) (cs : List Char) :
    (LineEnds.returns.writeFrom i cs).head? ≠ some '\n' := by
  cases cs with
  | nil => exact nofun
  | cons c cs =>
    by_cases hc : c = '\n'
    · subst hc
      exact fun h => absurd (Option.some.inj h) (by decide)
    · rw [LineEnds.writeFrom_cons _ _ hc]
      exact fun h => hc (Option.some.inj h)

theorem unifyLineEnds_writeFrom (e : LineEnds) (i : Nat) {cs : List Char} (h : '\r' ∉ cs) :
    unifyLineEnds (e.writeFrom i cs) = cs := by
  induction cs generalizing i with
  | nil => rfl
  | cons c cs ih =>
    obtain ⟨hc, hcs⟩ := not_or.1 (mt List.mem_cons.2 h)
    by_cases hfeed : c = '\n'
    · subst hfeed
      have hfeeds : unifyLineEnds ('\n' :: e.writeFrom (i + 1) cs) = '\n' :: cs := by
        rw [unifyLineEnds_cons (Ne.symm hc), ih _ hcs]
      rw [LineEnds.writeFrom_feed]
      cases e with
      | feeds => exact hfeeds
      | pairs chosen =>
        rw [LineEnds.spelled]
        split_ifs
        · exact congrArg ('\n' :: ·) (ih (i + 1) hcs)
        · exact hfeeds
      | returns =>
        -- Two carriage returns in a row stay two line ends: the one behind is no line feed.
        exact (unifyLineEnds_return (head_returns _ _)).trans (congrArg ('\n' :: ·) (ih _ hcs))
    · rw [LineEnds.writeFrom_cons _ _ hfeed, unifyLineEnds_cons (Ne.symm hc), ih _ hcs]

end Text

namespace Command

/-- Where two file systems may differ: in the octets of one file, and in what has been reported
before. -/
structure Divide where
  location : List String
  octets : List UInt8 × List UInt8
  reports : String × String

namespace Divide

def Same (d : Divide) (location : List String) (x y : List UInt8) : Prop :=
  x = y ∨ location = d.location ∧ x = d.octets.1 ∧ y = d.octets.2

def Entry (d : Divide) (e e' : List String × List UInt8) : Prop :=
  e.1 = e'.1 ∧ d.Same e.1 e.2 e'.2

theorem lookup {d : Divide} {es es' : List (List String × List UInt8)}
    (h : List.Forall₂ d.Entry es es') (location : List String) :
    Option.Rel (d.Same location) (es.lookup location) (es'.lookup location) := by
  induction h with
  | nil => exact .none
  | @cons e e' es es' he _ ih =>
    obtain ⟨place, x⟩ := e
    obtain ⟨place', y⟩ := e'
    obtain ⟨hplace, hsame⟩ := he
    simp only at hplace hsame
    subst hplace
    by_cases hp : location = place
    · subst hp
      rw [List.lookup_cons_self, List.lookup_cons_self]
      exact .some hsame
    · rw [List.lookup_cons, List.lookup_cons, beq_false_of_ne hp]
      exact ih

theorem places {d : Divide} {es es' : List (List String × List UInt8)}
    (h : List.Forall₂ d.Entry es es') : es.map (·.1) = es'.map (·.1) := by
  induction h with
  | nil => rfl
  | cons he _ ih => rw [List.map_cons, List.map_cons, he.1, ih]

def textIn (octets : List UInt8) : Except Text.Utf8.DecodeError (List Char) :=
  (Text.Utf8.decode octets).map Text.unifyLineEnds

def Unseen (d : Divide) : Prop := textIn d.octets.1 = textIn d.octets.2

theorem Unseen.textIn_eq {d : Divide} (hd : d.Unseen) {location : List String}
    {x y : List UInt8} (h : d.Same location x y) : textIn x = textIn y := by
  rcases h with rfl | ⟨-, rfl, rfl⟩
  · rfl
  · exact hd

inductive Matches (d : Divide) :
    Except Refusal FileSystem.Target → Except Refusal FileSystem.Target → Prop
  | same (r : Except Refusal FileSystem.Target) : Matches d r r
  | file {location : List String} {x y : List UInt8} (h : d.Same location x y) :
    Matches d (.ok (.file location x)) (.ok (.file location y))

end Divide

structure Twins (d : Divide) (f g : FileSystem) : Prop where
  files : List.Forall₂ d.Entry f.files g.files
  directories : f.directories = g.directories
  workingDirectory : f.workingDirectory = g.workingDirectory
  printed : f.printed = g.printed
  reported : ∃ text, f.reported = d.reports.1 ++ text ∧ g.reported = d.reports.2 ++ text

namespace Twins

variable {d : Divide} {f g : FileSystem}

theorem contents? (h : Twins d f g) (location : List String) :
    Option.Rel (d.Same location) (f.contents? location) (g.contents? location) :=
  Divide.lookup h.files location

theorem isDirectory (h : Twins d f g) (location : List String) :
    f.isDirectory location = g.isDirectory location := by
  have hany (f : FileSystem) : (f.files.any fun e => location.isPrefixOf e.1 && location ≠ e.1) =
      (f.files.map (·.1)).any fun place => location.isPrefixOf place && location ≠ place := by
    rw [List.any_map]
    rfl
  rw [FileSystem.isDirectory, FileSystem.isDirectory, hany, hany, Divide.places h.files,
    h.directories, h.workingDirectory]

theorem follow (h : Twins d f g) (purpose : FileSystem.Purpose) (place names : List String) :
    d.Matches (f.follow purpose place names) (g.follow purpose place names) := by
  induction names generalizing place with
  | nil => exact .same _
  | cons name rest ih =>
    have hcontents := h.contents? (place ++ [name])
    rw [FileSystem.follow, FileSystem.follow]
    simp only [← h.isDirectory]
    generalize f.contents? (place ++ [name]) = x at hcontents ⊢
    generalize g.contents? (place ++ [name]) = y at hcontents ⊢
    cases hcontents with
    | some hsame =>
      dsimp only
      split_ifs
      · exact ih _
      · exact ih _
      · exact .same _
      · exact .same _
      · exact .file hsame
      · exact .same _
    | none =>
      dsimp only
      split_ifs
      · exact ih _
      · exact ih _
      · exact .same _
      · exact .same _
      · exact ih _
      · exact .same _
      · exact .same _

theorem find (h : Twins d f g) (purpose : FileSystem.Purpose) (path : String) :
    d.Matches (f.find purpose path) (g.find purpose path) := by
  unfold FileSystem.find
  rw [h.workingDirectory]
  split_ifs
  · exact .same _
  · exact .same _
  · exact h.follow _ _ _
  · exact h.follow _ _ _

theorem read (h : Twins d f g) (path : String) :
    (∃ refusal, f.read path = .error refusal ∧ g.read path = .error refusal) ∨
    ∃ location x y, d.Same location x y ∧ f.read path = .ok x ∧ g.read path = .ok y := by
  rw [FileSystem.read, FileSystem.read]
  have hfind := h.find .reading path
  generalize f.find .reading path = r at hfind
  generalize g.find .reading path = r' at hfind
  cases hfind with
  | file hsame => exact .inr ⟨_, _, _, hsame, rfl, rfl⟩
  | same r =>
    cases r with
    | error refusal => exact .inl ⟨refusal, rfl, rfl⟩
    | ok target =>
      cases target with
      | directory => exact .inl ⟨_, rfl, rfl⟩
      | absent location => exact .inl ⟨_, rfl, rfl⟩
      | file location x => exact .inr ⟨location, x, x, .inl rfl, rfl, rfl⟩

theorem textOf_of_read {path : String} {octets : List UInt8} (h : f.read path = .ok octets)
    (hw : w.unreadable path = none) :
    textOf w f path = (Divide.textIn octets).mapError (.encoding ∘ .undecodable) := by
  rw [textOf, Surroundings.read, h, Divide.textIn]
  dsimp only
  rw [hw]
  dsimp only
  cases Text.Utf8.decode octets <;> rfl

theorem textOf (h : Twins d f g) (hd : d.Unseen) (path : String) :
    textOf w f path = textOf w g path := by
  obtain ⟨refusal, hf, hg⟩ | ⟨location, x, y, hsame, hf, hg⟩ := h.read path
  · rw [Command.textOf, Command.textOf, Surroundings.read, Surroundings.read, hf, hg]
  · cases hw : w.unreadable path with
    | none => rw [textOf_of_read hf hw, textOf_of_read hg hw, hd.textIn_eq hsame]
    | some refusal =>
      rw [Command.textOf, Command.textOf, Surroundings.read, Surroundings.read, hf, hg, hw]

theorem saying (h : Twins d f g) (text : String) : Twins d (f.saying text) (g.saying text) where
  files := h.files
  directories := h.directories
  workingDirectory := h.workingDirectory
  printed := h.printed
  reported := by
    obtain ⟨t, hf, hg⟩ := h.reported
    exact ⟨t ++ text, by rw [FileSystem.saying, hf, String.append_assoc],
      by rw [FileSystem.saying, hg, String.append_assoc]⟩

theorem printing (h : Twins d f g) (text : String) :
    Twins d (f.printing text) (g.printing text) where
  files := h.files
  directories := h.directories
  workingDirectory := h.workingDirectory
  printed := rfl
  reported := h.reported

theorem store (h : Twins d f g) (location : List String) (contents : List UInt8) :
    Twins d (f.store location contents) (g.store location contents) where
  files := .cons ⟨rfl, .inl rfl⟩
    (List.rel_filter (fun e e' he => by simp [show e.1 = e'.1 from he.1]) h.files)
  directories := h.directories
  workingDirectory := h.workingDirectory
  printed := h.printed
  reported := h.reported

theorem openFile (h : Twins d f g) (path : String) :
    (∃ refusal, f.openFile path = .error refusal ∧ g.openFile path = .error refusal) ∨
    ∃ location, f.openFile path = .ok (location, f.store location []) ∧
      g.openFile path = .ok (location, g.store location []) := by
  rw [FileSystem.openFile, FileSystem.openFile]
  have hfind := h.find .writing path
  generalize f.find .writing path = r at hfind
  generalize g.find .writing path = r' at hfind
  cases hfind with
  | file hsame => exact .inr ⟨_, rfl, rfl⟩
  | same r =>
    cases r with
    | error refusal => exact .inl ⟨refusal, rfl, rfl⟩
    | ok target =>
      cases target with
      | directory => exact .inl ⟨_, rfl, rfl⟩
      | absent location => exact .inr ⟨_, rfl, rfl⟩
      | file location old => exact .inr ⟨_, rfl, rfl⟩

end Twins

/-- A part of the command that comes to the same on both sides and leaves them no further apart. -/
def Blind (w : Surroundings) {α : Type} (d : Divide) (x : ExceptT Trouble System α) : Prop :=
  ∀ ⦃f g⦄, Twins d f g → ∃ r f' g', Does w x f r f' ∧ Does w x g r g' ∧ Twins d f' g'

section

variable {w : Surroundings} {d : Divide} {α β : Type} {threshold : Level}

theorem Blind.bind {x : ExceptT Trouble System α}
    {k : α → ExceptT Trouble System β} (hx : Blind w d x) (hk : ∀ a, Blind w d (k a)) :
    Blind w d (x >>= k) := by
  intro f g h
  obtain ⟨r, f', g', hf, hg, h'⟩ := hx h
  cases r with
  | error e => exact ⟨_, f', g', hf.bind_error, hg.bind_error, h'⟩
  | ok a =>
    obtain ⟨r, f'', g'', hf', hg', h''⟩ := hk a h'
    exact ⟨r, f'', g'', hf.bind hf', hg.bind hg', h''⟩

theorem blind_pure (a : α) : Blind w d (pure a) :=
  fun f g h => ⟨_, f, g, does_pure a, does_pure a, h⟩

theorem blind_throw (e : Trouble) :
    Blind w d (throw e : ExceptT Trouble System α) :=
  fun f g h => ⟨_, f, g, does_throw e, does_throw e, h⟩

theorem blind_log (r : LogRecord) : Blind w d (log threshold r) :=
  fun _ _ h => ⟨_, _, _, log_does r, log_does r, h.saying _⟩

theorem blind_checkPath (path : String) : Blind w d (checkPath path) := by
  intro f g h
  by_cases hp : '\x00' ∈ path.toList
  · exact ⟨_, f, g, checkPath_refused hp, checkPath_refused hp, h⟩
  · exact ⟨_, f, g, checkPath_does hp, checkPath_does hp, h⟩

theorem blind_openFile (path : String) : Blind w d (Host.openFile path) := by
  intro f g h
  obtain ⟨refusal, hf, hg⟩ | ⟨location, hf, hg⟩ := h.openFile path
  · exact ⟨_, f, g, does_openFile_refused hf, does_openFile_refused hg, h⟩
  · exact ⟨_, _, _, does_openFile hf, does_openFile hg, h.store location []⟩

theorem blind_fill (location : List String) (contents : List UInt8) :
    Blind w d (Host.fill location contents) := by
  intro f g h
  cases hd : w.device location contents with
  | none => exact ⟨_, _, _, does_fill hd, does_fill hd, h.store location contents⟩
  | some stop => exact ⟨_, _, _, does_fill_cut hd, does_fill_cut hd, h.store location _⟩

theorem blind_readSource (hd : d.Unseen) (path : String) :
    Blind w d (readSource threshold path) := by
  intro f g h
  by_cases hp : '\x00' ∈ path.toList
  · exact ⟨_, _, _, (log_does _).bind (checkPath_refused hp).bind_error,
      (log_does _).bind (checkPath_refused hp).bind_error, h.saying _⟩
  · refine ⟨_, _, _, readSource_does hp, ?_, h.saying _⟩
    rw [h.textOf hd path]
    exact readSource_does hp

theorem blind_describe (tokens : Bool) (source : List Char) :
    Blind w d (describe threshold tokens source) := by
  obtain ⟨notes, hnotes⟩ := describe_does threshold tokens source
  exact fun f g h => ⟨_, _, _, hnotes w f, hnotes w g, h.saying _⟩

theorem blind_layOut (indent : Indentation) (content : Json) : Blind w d (layOut indent content) :=
  fun f g h => ⟨_, f, g, layOut_does indent content, layOut_does indent content, h⟩

theorem blind_save (path what document : String) :
    Blind w d (save threshold path what document) := by
  refine (blind_checkPath path).bind fun _ => (blind_openFile path).bind fun r => ?_
  cases r with
  | error refusal => exact blind_throw _
  | ok location =>
    refine (blind_fill location _).bind fun r => ?_
    cases r with
    | error refusal => exact blind_throw _
    | ok _ => exact blind_log _

theorem blind_deliver (s : Settings) (source : List Char) (document : String) :
    Blind w d (deliver threshold s source document) := by
  unfold deliver
  split_ifs
  · intro f g h
    refine ⟨_, _, _, display_does s source document, ?_, h.printing _⟩
    rw [h.printed]
    exact display_does s source document
  · exact blind_save _ _ _

def process (threshold : Level) (s : Settings) (source : List Char) :
    ExceptT Trouble System String :=
  describe threshold s.tokens source >>= fun content =>
  layOut s.indent content >>= fun document =>
  deliver threshold s source document >>= fun _ => pure document

theorem blind_process (s : Settings) (source : List Char) :
    Blind w d (process threshold s source) :=
  (blind_describe s.tokens source).bind fun content =>
    (blind_layOut s.indent content).bind fun document =>
      (blind_deliver s source document).bind fun _ => blind_pure document

theorem blind_run (hd : d.Unseen) (s : Settings) : Blind w d (run threshold s) := by
  rw [run_eq]
  refine Blind.bind ?_ (blind_process s)
  split_ifs
  · exact blind_pure _
  · exact blind_readSource hd _

structure Concur {α : Type} (d : Divide) (x y : α × FileSystem) : Prop where
  result : x.1 = y.1
  twins : Twins d x.2 y.2

variable {f g : FileSystem}

theorem Blind.concur {x : ExceptT Trouble System α} (hx : Blind w d x)
    (h : Twins d f g) : Concur d ((x.run.run w).run f) ((x.run.run w).run g) := by
  obtain ⟨r, f', g', hf, hg, h'⟩ := hx h
  unfold Does at hf hg
  rw [hf, hg]
  exact ⟨rfl, h'⟩

theorem concur_conclude (hd : d.Unseen) (h : Twins d f g) (s : Settings) :
    Concur d (((conclude threshold s : System Exit).run w).run f)
      (((conclude threshold s : System Exit).run w).run g) := by
  obtain ⟨r, f', g', hf, hg, h'⟩ := blind_run (w := w) hd s h
  rw [conclude_run hf, conclude_run hg]
  cases r with
  | ok document => exact ⟨rfl, h'⟩
  | error trouble =>
    dsimp only [concluded]
    split_ifs
    · exact ⟨rfl, h'.saying _⟩
    · exact ⟨rfl, h'⟩

theorem concur_command (hd : d.Unseen) (h : Twins d f g) (level : Option String)
    (arguments : List String) :
    Concur d (commandOn w level arguments f) (commandOn w level arguments g) := by
  unfold commandOn execute
  cases settings arguments with
  | ok s => exact concur_conclude hd h s
  | error stop =>
    cases stop with
    | usage e => exact ⟨rfl, h.saying _⟩
    | help =>
      dsimp only
      rw [ReaderT.run_bind, StateT.run_bind, StateT.run_bind, print_run, print_run, h.printed]
      cases (w.shown g.printed helpText).1 with
      | ok _ => exact ⟨rfl, h.printing _⟩
      | error e => cases e <;> exact ⟨rfl, h.printing _⟩

end

def holding (base : FileSystem) (location : List String) (text : List Char) (e : Text.LineEnds) :
    FileSystem := base.store location (Text.Utf8.encode (e.write text))

def runOn (w : Surroundings) (threshold : Level) (s : Settings) (f : FileSystem) :
    Except Trouble String × FileSystem :=
  ((run threshold s : ExceptT Trouble System String).run.run w).run f

/-- What an action on two file systems comes to that differ in one file. The file is the same
afterwards, or is on both sides as it was. -/
structure SameEnd {α : Type} (action : FileSystem → α × FileSystem) (location : List String)
    (f g : FileSystem) : Prop where
  result : (action f).1 = (action g).1
  printed : (action f).2.printed = (action g).2.printed
  reported : (action f).2.reported = (action g).2.reported
  others : ∀ other, other ≠ location →
    (action f).2.contents? other = (action g).2.contents? other
  own : (action f).2.contents? location = (action g).2.contents? location ∨
    (action f).2.contents? location = f.contents? location ∧
      (action g).2.contents? location = g.contents? location

section

variable (base : FileSystem) (location : List String) {text : List Char}

def divided (text : List Char) (a b : Text.LineEnds) : Divide where
  location := location
  octets := (Text.Utf8.encode (a.write text), Text.Utf8.encode (b.write text))
  reports := (base.reported, base.reported)

theorem unseen_divided (h : '\r' ∉ text) (a b : Text.LineEnds) :
    (divided base location text a b).Unseen := by
  have htext (e : Text.LineEnds) :
      Divide.textIn (Text.Utf8.encode (e.write text)) = .ok text := by
    rw [Divide.textIn, Text.Utf8.decode_eq_ok.2 rfl]
    exact congrArg Except.ok (Text.unifyLineEnds_writeFrom e 0 h)
  exact (htext a).trans (htext b).symm

theorem twins_holding (a b : Text.LineEnds) :
    Twins (divided base location text a b) (holding base location text a)
      (holding base location text b) where
  files := .cons ⟨rfl, .inr ⟨rfl, rfl, rfl⟩⟩ (List.forall₂_same.2 fun _ _ => ⟨rfl, .inl rfl⟩)
  directories := rfl
  workingDirectory := rfl
  printed := rfl
  reported := ⟨"", (String.append_empty).symm, (String.append_empty).symm⟩

theorem Concur.sameEnd {α : Type} {a b : Text.LineEnds} {action : FileSystem → α × FileSystem}
    (h : Concur (divided base location text a b) (action (holding base location text a))
      (action (holding base location text b))) :
    SameEnd action location (holding base location text a) (holding base location text b) where
  result := h.result
  printed := h.twins.printed
  reported := by
    obtain ⟨t, hx, hy⟩ := h.twins.reported
    exact hx.trans hy.symm
  others other hne := by
    have hcontents := h.twins.contents? other
    generalize (action (holding base location text a)).2.contents? other = u at hcontents ⊢
    generalize (action (holding base location text b)).2.contents? other = v at hcontents ⊢
    cases hcontents with
    | none => rfl
    | some hsame => rw [hsame.resolve_right fun hs => hne hs.1]
  own := by
    have hcontents := h.twins.contents? location
    have hown (e : Text.LineEnds) : (holding base location text e).contents? location =
      some (Text.Utf8.encode (e.write text)) := base.contents?_store location _
    rw [hown, hown]
    generalize (action (holding base location text a)).2.contents? location = u at hcontents ⊢
    generalize (action (holding base location text b)).2.contents? location = v at hcontents ⊢
    cases hcontents with
    | none => exact .inl rfl
    | some hsame =>
      rcases hsame with rfl | ⟨-, rfl, rfl⟩
      · exact .inl rfl
      · exact .inr ⟨rfl, rfl⟩

end

/-- What a run on a file and a run on its text have in common: all but the note that the file is
read. -/
structure SameRun (w : Surroundings) (threshold : Level) (s t : Settings) (f : FileSystem) :
    Prop where
  result : (runOn w threshold s f).1 = (runOn w threshold t f).1
  printed : (runOn w threshold s f).2.printed = (runOn w threshold t f).2.printed
  reported : ∃ more,
    (runOn w threshold s f).2.reported =
      f.reported ++ logged threshold [.reading s.source] ++ more ∧
    (runOn w threshold t f).2.reported = f.reported ++ more
  contents : ∀ location,
    (runOn w threshold s f).2.contents? location = (runOn w threshold t f).2.contents? location

def Settings.literally (s : Settings) (text : List Char) : Settings :=
  { s with source := String.ofList text, literal := true }

theorem run_literally {w : Surroundings} {threshold : Level} {f : FileSystem} {s : Settings}
    {text : List Char} (hs : s.literal = false) (hp : '\x00' ∉ s.source.toList)
    (htext : textOf w f s.source = .ok text) : SameRun w threshold s (s.literally text) f := by
  -- The two sides are one file system, before and after the note.
  let note := logged threshold [.reading s.source]
  let d : Divide := ⟨[], ([], []), (f.reported ++ note, f.reported)⟩
  have htwins : Twins d (f.saying note) f :=
    { files := List.forall₂_same.2 fun _ _ => ⟨rfl, .inl rfl⟩
      directories := rfl
      workingDirectory := rfl
      printed := rfl
      reported := ⟨"", (String.append_empty).symm, (String.append_empty).symm⟩ }
  have hblind : Blind w d (process threshold s text) := blind_process s text
  obtain ⟨r, f', g', hf, hg, h⟩ := hblind htwins
  have hread : Does w (readSource threshold s.source) f (.ok text) (f.saying note) := by
    rw [← htext]
    exact readSource_does hp
  have hfile : Does w (run threshold s) f r f' := by
    rw [run_eq, if_neg (by simp [hs])]
    exact hread.bind hf
  have hliteral : Does w (run threshold (s.literally text)) f r g' := by
    have hsource : (s.literally text).source.toList = text := String.toList_ofList
    rw [run_eq, if_pos (show (s.literally text).literal = true from rfl), hsource]
    exact (does_pure text).bind hg
  have hfile' : runOn w threshold s f = (r, f') := hfile
  have hliteral' : runOn w threshold (s.literally text) f = (r, g') := hliteral
  constructor <;> rw [hfile', hliteral']
  · exact h.printed
  · exact h.reported
  intro location
  have hcontents := h.contents? location
  generalize f'.contents? location = u at hcontents ⊢
  generalize g'.contents? location = v at hcontents ⊢
  cases hcontents with
  | none => rfl
  | some hsame =>
    rcases hsame with rfl | ⟨-, rfl, rfl⟩
    · rfl
    · rfl

/-- Whichever way the lines of a file are ended, the command and each of its runs end the same: with
the same result, the same on the screen and in the reports, and the same in every file but the one
itself, which is overwritten with the same or left as it was. And a run on the file is a run on the
text, but for the note that the file is read. -/
theorem line_ends_immaterial {text : List Char} (htext : '\r' ∉ text) (w : Surroundings)
    (base : FileSystem) (location : List String) (a b : Text.LineEnds) :
    (∀ level arguments, SameEnd (commandOn w level arguments) location
      (holding base location text a) (holding base location text b)) ∧
    (∀ threshold s, SameEnd (runOn w threshold s) location
      (holding base location text a) (holding base location text b)) ∧
    ∀ threshold s, s.literal = false → '\x00' ∉ s.source.toList →
      (holding base location text a).find .reading s.source =
        .ok (.file location (Text.Utf8.encode (a.write text))) →
      w.unreadable s.source = none →
      SameRun w threshold s (s.literally text) (holding base location text a) := by
  have hd := unseen_divided base location htext a b
  have htwins : Twins (divided base location text a b) _ _ := twins_holding base location a b
  refine ⟨fun level arguments => ?_, fun threshold s => ?_, fun threshold s hs hp hfind hw => ?_⟩
  · exact Concur.sameEnd base location (concur_command hd htwins level arguments)
  · exact Concur.sameEnd base location ((blind_run hd s).concur htwins)
  · have hread : textOf w (holding base location text a) s.source = .ok text :=
      textOf_eq_ok.2 ⟨hw, location, _, hfind, (Text.unifyLineEnds_writeFrom a 0 htext).symm⟩
    exact run_literally hs hp hread

theorem line_ends_immaterial_mixed :
    '\r' ∉ ['"', '\n', '"', ';', '\n', 'b'] ∧
    SameEnd (commandOn .generous none ["r.rx"]) ["w", "r.rx"]
      (holding ⟨[], [], ["w"], "", ""⟩ ["w", "r.rx"] ['"', '\n', '"', ';', '\n', 'b']
        (.pairs (· = 4)))
      (holding ⟨[], [], ["w"], "", ""⟩ ["w", "r.rx"] ['"', '\n', '"', ';', '\n', 'b'] .returns) ∧
    SameRun .generous .debug ⟨"r.rx", false, true, none, true, .columns 2, true⟩
      ⟨"\"\n\";\nb", true, true, none, true, .columns 2, true⟩
      (holding ⟨[], [], ["w"], "", ""⟩ ["w", "r.rx"] ['"', '\n', '"', ';', '\n', 'b']
        (.pairs (· = 4))) ∧
    (commandOn .generous none ["r.rx"] (holding ⟨[], [], ["w"], "", ""⟩ ["w", "r.rx"]
      ['"', '\n', '"', ';', '\n', 'b'] .returns)).1 = .code 0 := by
  have htext : '\r' ∉ ['"', '\n', '"', ';', '\n', 'b'] := by decide
  obtain ⟨hcommand, -, hliteral⟩ := line_ends_immaterial htext .generous ⟨[], [], ["w"], "", ""⟩
    ["w", "r.rx"] (.pairs (· = 4)) .returns
  refine ⟨htext, hcommand none ["r.rx"], ?_, by decide +kernel⟩
  exact hliteral .debug ⟨"r.rx", false, true, none, true, .columns 2, true⟩ rfl (by decide) rfl
    rfl

end Command

end RuleLang
