import Mathlib.Tactic.Common
import RuleLang.Command
import RuleLang.Proofs.Encoding
import RuleLang.Proofs.Failures

/-!
What the parts of the command do to a file system. Reading, describing and laying out only say
something to the user; showing a document prints it, or as much of it as the screen takes; saving
one puts it in the place that its path leads to, or as much of it as the device takes there, or is
refused and changes nothing.
-/
namespace RuleLang.Command

namespace FileSystem

variable (f : FileSystem)

def saying (text : String) : FileSystem := { f with reported := f.reported ++ text }

theorem saying_saying (a b : String) : (f.saying a).saying b = f.saying (a ++ b) := by
  rw [saying, saying, saying, String.append_assoc]

def printing (printed : String) : FileSystem := { f with printed := printed }

theorem follow_saying (text : String) (purpose : Purpose) (place names : List String) :
    (f.saying text).follow purpose place names = f.follow purpose place names := by
  induction names generalizing place with
  | nil => rfl
  | cons name rest ih =>
    simp only [follow, ih]
    rfl

theorem find_saying (text : String) (purpose : Purpose) (path : String) :
    (f.saying text).find purpose path = f.find purpose path := by
  rw [find, find, follow_saying]
  rfl

theorem read_eq_ok {path : String} {contents : List UInt8} :
    f.read path = .ok contents ↔
      ∃ location, f.find .reading path = .ok (.file location contents) := by
  rw [read]
  cases f.find .reading path with
  | error refusal => simp
  | ok target => cases target <;> simp

theorem read_saying (text path : String) : (f.saying text).read path = f.read path := by
  rw [read, read, find_saying]

/-- A path leads to a file, or to where one can be made. -/
def Opens (path : String) (location : List String) : Prop :=
  f.find .writing path = .ok (.absent location) ∨
    ∃ contents, f.find .writing path = .ok (.file location contents)

theorem Opens.unique {path : String} {location other : List String} (h : f.Opens path location)
    (h' : f.Opens path other) : location = other := by
  rcases h with h | ⟨_, h⟩ <;> rcases h' with h' | ⟨_, h'⟩ <;> rw [h] at h' <;> cases h' <;> rfl

end FileSystem

/-- What a part of the command makes of a file system in its surroundings. -/
def Does (w : Surroundings) {α : Type} (x : ExceptT Trouble System α) (f : FileSystem)
    (r : Except Trouble α) (g : FileSystem) : Prop := (x.run.run w).run f = (r, g)

section

variable {w : Surroundings} {α β : Type} {f g h : FileSystem}

theorem Does.bind {x : ExceptT Trouble System α}
    {k : α → ExceptT Trouble System β} {a : α} {r : Except Trouble β}
    (hx : Does w x f (.ok a) g) (hk : Does w (k a) g r h) : Does w (x >>= k) f r h := by
  unfold Does at hx hk ⊢
  rw [ExceptT.run_bind, ReaderT.run_bind, StateT.run_bind, hx]
  exact hk

theorem Does.bind_error {x : ExceptT Trouble System α}
    {k : α → ExceptT Trouble System β} {e : Trouble}
    (hx : Does w x f (.error e) g) : Does w (x >>= k) f (.error e) g := by
  unfold Does at hx ⊢
  rw [ExceptT.run_bind, ReaderT.run_bind, StateT.run_bind, hx]
  rfl

theorem Does.unique {x : ExceptT Trouble System α} {r r' : Except Trouble α}
    (h : Does w x f r g) {g' : FileSystem} (h' : Does w x f r' g') : r = r' ∧ g = g' :=
  Prod.mk.inj (Eq.trans (Eq.symm h) h')

theorem Does.of_bind {x : ExceptT Trouble System α}
    {k : α → ExceptT Trouble System β} {b : β} (hb : Does w (x >>= k) f (.ok b) g) :
    ∃ a h, Does w x f (.ok a) h ∧ Does w (k a) h (.ok b) g := by
  have hx : Does w x f ((x.run.run w).run f).1 ((x.run.run w).run f).2 := rfl
  cases hr : ((x.run.run w).run f).1 with
  | error e =>
    rw [hr] at hx
    cases (hx.bind_error.unique hb).1
  | ok a =>
    rw [hr] at hx
    refine ⟨a, _, hx, ?_⟩
    have hk : Does w (k a) ((x.run.run w).run f).2
      (((k a).run.run w).run ((x.run.run w).run f).2).1
      (((k a).run.run w).run ((x.run.run w).run f).2).2 := rfl
    obtain ⟨h1, h2⟩ := (hx.bind hk).unique hb
    rwa [h1, h2] at hk

theorem Surroundings.read_eq_ok {path : String} {contents : List UInt8} :
    w.read f path = .ok contents ↔ w.unreadable path = none ∧
      ∃ location, f.find .reading path = .ok (.file location contents) := by
  rw [read, ← f.read_eq_ok]
  cases f.read path with
  | error refusal => simp
  | ok octets => cases w.unreadable path <;> simp

theorem Surroundings.read_saying (text path : String) :
    w.read (f.saying text) path = w.read f path := by
  rw [read, read, f.read_saying]

theorem does_pure (a : α) : Does w (pure a) f (.ok a) f := rfl

theorem does_throw (e : Trouble) :
    Does w (throw e : ExceptT Trouble System α) f (.error e) f := rfl

theorem does_lift {x : System α} {a : α} (h : (x.run w).run f = (a, g)) :
    Does w (ExceptT.lift x) f (.ok a) g :=
  congrArg (fun p : α × FileSystem => ((.ok p.1 : Except Trouble α), p.2)) h

theorem does_readFile (path : String) : Does w (Host.readFile path) f (.ok (w.read f path)) f := rfl

theorem does_openFile {path : String} {location : List String}
    (h : f.openFile path = .ok (location, g)) :
    Does w (Host.openFile path) f (.ok (.ok location)) g := by
  refine does_lift (show StateT.run (Host.openFile path) f = _ from ?_)
  simp only [Host.openFile, StateT.run_bind, StateT.run_get, pure_bind, h]
  rfl

theorem does_openFile_refused {path : String} {refusal : Refusal}
    (h : f.openFile path = .error refusal) :
    Does w (Host.openFile path) f (.ok (.error refusal)) f := by
  refine does_lift (show StateT.run (Host.openFile path) f = _ from ?_)
  simp only [Host.openFile, StateT.run_bind, StateT.run_get, pure_bind, h]
  rfl

variable {location : List String} {contents : List UInt8}

theorem does_fill (h : w.device location contents = none) :
    Does w (Host.fill location contents) f (.ok (.ok ())) (f.store location contents) := by
  refine does_lift (show (w.fill location contents).run f = _ from ?_)
  rw [Surroundings.fill, h]
  rfl

theorem does_fill_cut {taken : Nat} {refusal : Refusal}
    (h : w.device location contents = some (taken, refusal)) :
    Does w (Host.fill location contents) f (.ok (.error refusal))
      (f.store location (contents.take taken)) := by
  refine does_lift (show (w.fill location contents).run f = _ from ?_)
  rw [Surroundings.fill, h]
  rfl

def Surroundings.shown (w : Surroundings) (printed text : String) :
    Except ScreenError Unit × String :=
  match w.screen printed text with
  | .takes => (.ok (), printed ++ text)
  | .unencodable message => (.error (.unencodable message), printed)
  | .breaks shown refusal =>
    (.error (.refused refusal), printed ++ String.ofList (text.toList.take shown))

theorem print_run (text : String) : ((Host.print text : System _).run w).run f =
    ((w.shown f.printed text).1, f.printing (w.shown f.printed text).2) := by
  show (w.print text).run f = _
  simp only [Surroundings.print, Surroundings.shown, StateT.run_bind, StateT.run_get, pure_bind]
  cases w.screen f.printed text <;> rfl

theorem does_print (text : String) : Does w (Host.print text) f (.ok (w.shown f.printed text).1)
    (f.printing (w.shown f.printed text).2) := does_lift (print_run text)

theorem does_holds (width : Option Int) (content : Json) :
    Does w (Host.holds width content) f (.ok (w.holds width content)) f := rfl

end

variable {w : Surroundings} {f g : FileSystem} {threshold : Level}

def logged (threshold : Level) (notes : List LogRecord) : String :=
  String.join ((notes.filter fun r => threshold.rank ≤ r.level.rank).map LogRecord.line)

theorem saying_nil : f.saying (logged threshold []) = f := by
  rw [FileSystem.saying, logged, List.filter_nil, List.map_nil, String.join_nil,
    String.append_empty]

theorem logged_append (a b : List LogRecord) :
    logged threshold (a ++ b) = logged threshold a ++ logged threshold b := by
  rw [logged, logged, logged, List.filter_append, List.map_append, String.join_append]

theorem log_does (r : LogRecord) :
    Does w (log threshold r) f (.ok ()) (f.saying (logged threshold [r])) := by
  rw [log]
  split_ifs with h
  · have hl : logged threshold [r] = r.line := by
      rw [logged, List.filter_cons_of_pos (by simpa using h)]
      simp
    rw [hl]
    rfl
  · have hl : logged threshold [r] = "" := by
      rw [logged, List.filter_cons_of_neg (by simpa using h)]
      rfl
    rw [hl, FileSystem.saying, String.append_empty]
    rfl

theorem checkPath_does {path : String} (h : '\x00' ∉ path.toList) :
    Does w (checkPath path) f (.ok ()) f := by
  rw [checkPath, if_neg h]
  rfl

theorem checkPath_refused {path : String} (h : '\x00' ∈ path.toList) :
    Does w (checkPath path) f (.error .embeddedNul) f := by
  rw [checkPath, if_pos h]
  exact does_throw _

def textOf (w : Surroundings) (f : FileSystem) (path : String) : Except Trouble (List Char) :=
  match w.read f path with
  | .error e => .error (.path e)
  | .ok octets =>
    match Text.Utf8.decode octets with
    | .error e => .error (.encoding (.undecodable e))
    | .ok cs => .ok (Text.unifyLineEnds cs)

theorem readSource_does {path : String} (h : '\x00' ∉ path.toList) :
    Does w (readSource threshold path) f (textOf w f path)
      (f.saying (logged threshold [.reading path])) := by
  refine (log_does _).bind ((checkPath_does h).bind ((does_readFile path).bind ?_))
  rw [w.read_saying, textOf]
  cases w.read f path with
  | error e => exact does_throw _
  | ok octets =>
    dsimp only
    cases Text.Utf8.decode octets with
    | error e => exact does_throw _
    | ok cs => exact does_pure _

theorem readSource_ok {path : String} {source : List Char}
    (h : Does w (readSource threshold path) f (.ok source) g) : textOf w f path = .ok source := by
  by_cases hp : '\x00' ∈ path.toList
  · obtain ⟨_, _, hlog, hrest⟩ := h.of_bind
    cases ((checkPath_refused hp).bind_error.unique hrest).1
  · exact ((readSource_does hp).unique h).1

theorem textOf_eq_ok {path : String} {source : List Char} : textOf w f path = .ok source ↔
    w.unreadable path = none ∧ ∃ location text,
      f.find .reading path = .ok (.file location (Text.Utf8.encode text)) ∧
        source = Text.unifyLineEnds text := by
  constructor
  · intro h
    unfold textOf at h
    cases hr : w.read f path with
    | error refusal => rw [hr] at h; cases h
    | ok octets =>
      obtain ⟨hw, location, hf⟩ := w.read_eq_ok.1 hr
      rw [hr] at h
      dsimp only at h
      cases hd : Text.Utf8.decode octets with
      | error e => rw [hd] at h; cases h
      | ok text =>
        rw [hd] at h
        cases h
        exact ⟨hw, location, text, Text.Utf8.decode_eq_ok.1 hd ▸ hf, rfl⟩
  · rintro ⟨hw, location, text, hf, rfl⟩
    rw [textOf, w.read_eq_ok.2 ⟨hw, location, hf⟩]
    dsimp only
    rw [Text.Utf8.decode_eq_ok.2 rfl]

def contentOf (tokens : Bool) (source : List Char) : Except Failure Json :=
  if tokens then (tokenize source).map fun ts => .array (ts.map Token.toJson)
  else (parse source).map fun nodes => .array (Node.toJsonAll nodes)

variable (threshold) in
theorem noted_does {α : Type} (r : Except Failure α) : ∃ notes, ∀ w f,
    Does w (noted threshold r) f (r.mapError .language) (f.saying (logged threshold notes)) := by
  cases r with
  | ok a => exact ⟨[], fun w f => by rw [saying_nil]; exact does_pure a⟩
  | error e =>
    cases e with
    | malformed error => exact ⟨[.malformed error], fun w f => (log_does _).bind (does_throw _)⟩
    | _ => exact ⟨[], fun w f => by rw [saying_nil]; exact does_throw _⟩

variable (threshold) in
theorem describe_does (tokens : Bool) (source : List Char) : ∃ notes, ∀ w f,
    Does w (describe threshold tokens source) f ((contentOf tokens source).mapError .language)
      (f.saying (logged threshold notes)) := by
  unfold describe contentOf
  split_ifs
  · obtain ⟨notes, h⟩ := noted_does threshold (tokenize source)
    cases ht : tokenize source with
    | ok ts =>
      rw [ht] at h
      exact ⟨notes, fun w f => (h w f).bind (does_pure _)⟩
    | error e =>
      rw [ht] at h
      exact ⟨notes, fun w f => (h w f).bind_error⟩
  · obtain ⟨notes, h⟩ := noted_does threshold (parse source)
    cases hp : parse source with
    | ok nodes =>
      refine ⟨notes ++ [.parsed nodes.length], fun w f => ?_⟩
      rw [logged_append, ← FileSystem.saying_saying]
      rw [hp] at h
      exact (h w f).bind ((log_does _).bind (does_pure _))
    | error e =>
      rw [hp] at h
      exact ⟨notes, fun w f => (h w f).bind_error⟩

/-- The document of a content, if it can be laid out and memory holds it. -/
def laidOut (w : Surroundings) (indent : Indentation) (content : Json) :
    Except IndentationError String :=
  match indent.width? with
  | .error e => .error e
  | .ok width =>
    if w.holds width content then .ok (content.document width) else .error .outOfMemory

theorem layOut_does (indent : Indentation) (content : Json) :
    Does w (layOut indent content) f ((laidOut w indent content).mapError .indentation) f := by
  unfold layOut laidOut
  cases indent.width? with
  | error e => exact does_throw _
  | ok width =>
    refine (does_holds width content).bind ?_
    dsimp only
    split_ifs
    · exact does_pure _
    · exact does_throw _

theorem laidOut_eq_ok {indent : Indentation} {content : Json} {document : String} :
    laidOut w indent content = .ok document ↔ ∃ width, indent.width? = .ok width ∧
      w.holds width content = true ∧ content.document width = document := by
  rw [laidOut]
  cases indent.width? with
  | error e => simp
  | ok width =>
    dsimp only
    split_ifs with h <;> simp [h]

/-- What has been printed after some texts, and the trouble if one of them is not taken. -/
def Surroundings.shows (w : Surroundings) : List String → String → Except Trouble Unit × String
  | [], printed => (.ok (), printed)
  | text :: rest, printed =>
    match w.shown printed text with
    | (.ok (), printed) => shows w rest printed
    | (.error e, printed) => (.error e.trouble, printed)

theorem present_does (texts : List String) : Does w (texts.forM present) f
    (w.shows texts f.printed).1 (f.printing (w.shows texts f.printed).2) := by
  induction texts generalizing f with
  | nil => exact does_pure _
  | cons text rest ih =>
    have hprint := does_print (w := w) (f := f) text
    rw [Surroundings.shows]
    generalize w.shown f.printed text = shown at hprint ⊢
    obtain ⟨r, printed⟩ := shown
    cases r with
    | ok _ =>
      have hpresent : Does w (present text) f (.ok ()) (f.printing printed) :=
        hprint.bind (does_pure ())
      exact hpresent.bind ih
    | error e => exact (hprint.bind (does_throw _)).bind_error

/-- What is shown of a document: itself, or the source and it between banners. -/
def screens (s : Settings) (source : List Char) (document : String) : List String :=
  if s.pretty then
    [banner "RAW CONTENT" ++ String.ofList source ++ "\n" ++ banner "",
      banner (title s.tokens) ++ document ++ "\n" ++ banner ""]
  else [document ++ "\n"]

theorem display_does (s : Settings) (source : List Char) (document : String) :
    Does w (display s source document) f (w.shows (screens s source document) f.printed).1
      (f.printing (w.shows (screens s source document) f.printed).2) := by
  have hforM : (display s source document : ExceptT Trouble System Unit) =
      (screens s source document).forM present := by
    unfold display screens
    split_ifs <;> simp
  rw [hforM]
  exact present_does _

def fileOf (document : String) : List UInt8 := Text.Utf8.encode (document ++ "\n").toList

section

variable {path : String} {location : List String} (hp : '\x00' ∉ path.toList)
include hp

end

end RuleLang.Command
