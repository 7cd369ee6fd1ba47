import Mathlib.Tactic.Common
import RuleLang.Proofs.Effects

/-!
All or nothing. The command begins to deliver only if its source can be read and described, the
document can be laid out and the path for it can be opened; until then it has printed nothing and
changed no file. From there on nothing fails but the screen or the device that the document goes to,
which then has a beginning of it. A command that succeeds has shown its document, or has put it in
the one file that its path leads to.
-/
namespace RuleLang.Command

variable {w : Surroundings} {threshold : Level} {s : Settings} {f g : FileSystem}

/-- The text that the command is given: its argument, or what a file holds in UTF-8 and lets be
read, with a line feed for every line end. -/
inductive Given (w : Surroundings) (f : FileSystem) (s : Settings) : List Char → Prop
  | literal (h : s.literal = true) : Given w f s s.source.toList
  | file {location : List String} {text : List Char} (h : s.literal = false)
      (hf : f.find .reading s.source = .ok (.file location (Text.Utf8.encode text)))
      (hw : w.unreadable s.source = none) :
      Given w f s (Text.unifyLineEnds text)

structure Describes (w : Surroundings) (f : FileSystem) (s : Settings) (source : List Char)
    (content : Json) : Prop where
  given : Given w f s source
  content : contentOf s.tokens source = .ok content

def Documented (w : Surroundings) (f : FileSystem) (s : Settings) (source : List Char)
    (document : String) : Prop :=
  ∃ content, Describes w f s source content ∧ laidOut w s.indent content = .ok document

inductive Delivers (w : Surroundings) (threshold : Level) (f : FileSystem) (s : Settings)
    (source : List Char) (document : String) : Except Trouble Unit → FileSystem → Prop
  | shown {notes : List LogRecord} {r : Except Trouble Unit} {printed : String}
      (h : s.out.getD "" = "") (hs : w.shows (screens s source document) f.printed = (r, printed)) :
    Delivers w threshold f s source document r
      ((f.printing printed).saying (logged threshold notes))
  | saved {location : List String} {notes : List LogRecord} (h : s.out.getD "" ≠ "")
      (ho : f.Opens (s.out.getD "") location)
      (hd : w.device location (fileOf document) = none) :
    Delivers w threshold f s source document (.ok ())
      ((f.store location (fileOf document)).saying (logged threshold notes))
  | cut {location : List String} {notes : List LogRecord} {taken : Nat} {refusal : Refusal}
      (h : s.out.getD "" ≠ "") (ho : f.Opens (s.out.getD "") location)
      (hd : w.device location (fileOf document) = some (taken, refusal)) :
    Delivers w threshold f s source document (.error (.path ⟨refusal, none⟩))
      ((f.store location ((fileOf document).take taken)).saying (logged threshold notes))
  | refused {notes : List LogRecord} {refusal : Refusal} (h : s.out.getD "" ≠ "")
      (ho : ∀ location, ¬ f.Opens (s.out.getD "") location) :
    Delivers w threshold f s source document (.error (.path ⟨refusal, s.out.getD ""⟩))
      (f.saying (logged threshold notes))

def sourceOf (w : Surroundings) (f : FileSystem) (s : Settings) : Except Trouble (List Char) :=
  if s.literal then .ok s.source.toList else textOf w f s.source

theorem given_iff {source : List Char} : Given w f s source ↔ sourceOf w f s = .ok source := by
  unfold sourceOf
  constructor
  · rintro (h | ⟨h, hf, hw⟩)
    · rw [if_pos h]
    · rw [if_neg (by simp [h]), textOf_eq_ok]
      exact ⟨hw, _, _, hf, rfl⟩
  · intro h
    split_ifs at h with hl
    · cases h
      exact .literal hl
    · obtain ⟨hw, location, text, hf, rfl⟩ := textOf_eq_ok.1 h
      exact .file (by simpa using hl) hf hw

inductive Ends (w : Surroundings) (threshold : Level) (f : FileSystem) (s : Settings) :
    Except Trouble String → FileSystem → Prop
  | stopped {trouble : Trouble} {notes : List LogRecord} (ht : trouble.isReported)
      (h : ∀ source content, ¬ Describes w f s source content) :
    Ends w threshold f s (.error trouble) (f.saying (logged threshold notes))
  | unlaid {source : List Char} {content : Json} {e : IndentationError} {notes : List LogRecord}
      (h : Describes w f s source content) (he : laidOut w s.indent content = .error e) :
    Ends w threshold f s (.error (.indentation e)) (f.saying (logged threshold notes))
  | delivered {source : List Char} {document : String} {r : Except Trouble Unit} {g : FileSystem}
      (h : Documented w f s source document) (hg : Delivers w threshold f s source document r g) :
    Ends w threshold f s (r.map fun _ => document) g

def deliver (threshold : Level) (s : Settings) (source : List Char) (document : String) :
    ExceptT Trouble System Unit :=
  if s.out.getD "" = "" then display s source document
  else save threshold (s.out.getD "") (subject s.tokens) document

theorem run_eq : (run threshold s : ExceptT Trouble System String) =
    (if s.literal then pure s.source.toList else readSource threshold s.source) >>= fun source =>
      describe threshold s.tokens source >>= fun content =>
      layOut s.indent content >>= fun document =>
      deliver threshold s source document >>= fun _ => pure document := by
  unfold run deliver
  by_cases hl : s.literal <;> by_cases hp : s.out.getD "" = "" <;> simp only [hl, hp] <;> rfl

theorem Describes.unique {source source' : List Char} {content content' : Json}
    (h : Describes w f s source content) (h' : Describes w f s source' content') :
    source = source' ∧ content = content' := by
  have hgiven := given_iff.1 h.given
  rw [given_iff.1 h'.given] at hgiven
  cases hgiven
  have hc := h.content
  rw [h'.content] at hc
  cases hc
  exact ⟨rfl, rfl⟩

theorem Documented.unique {source source' : List Char} {document document' : String}
    (h : Documented w f s source document) (h' : Documented w f s source' document') :
    source = source' ∧ document = document' := by
  obtain ⟨content, hd, hl⟩ := h
  obtain ⟨content', hd', hl'⟩ := h'
  obtain ⟨rfl, rfl⟩ := hd.unique hd'
  rw [hl'] at hl
  cases hl
  exact ⟨rfl, rfl⟩

/-- A file holds some octets; that is all that has changed but reports. -/
structure Saved (f g : FileSystem) (location : List String) (contents : List UInt8) : Prop where
  contents : g.contents? location = some contents
  others : ∀ other, other ≠ location → g.contents? other = f.contents? other
  directories : g.directories = f.directories
  printed : g.printed = f.printed

theorem Saved.saying {location : List String} {contents : List UInt8}
    (h : Saved f g location contents) (text : String) :
    Saved f (g.saying text) location contents :=
  ⟨h.contents, h.others, h.directories, h.printed⟩

structure Untouched (f g : FileSystem) : Prop where
  files : g.files = f.files
  directories : g.directories = f.directories

theorem Untouched.saying (h : Untouched f g) (text : String) : Untouched f (g.saying text) :=
  ⟨h.files, h.directories⟩

/-- A beginning of what is printed of a document has been, or of its octets stands in its file. -/
def Partial (f g : FileSystem) (s : Settings) (source : List Char) (document : String) : Prop :=
  if s.out.getD "" = "" then
    Untouched f g ∧ ∃ shown rest, shown ++ rest = String.join (screens s source document) ∧
      g.printed = f.printed ++ shown
  else ∃ location taken, f.Opens (s.out.getD "") location ∧
    Saved f g location ((fileOf document).take taken)

def concluded (g : FileSystem) : Except Trouble String → Exit × FileSystem
  | .ok _ => (.code 0, g)
  | .error trouble =>
    if trouble.isReported then (.code 1, g.saying ("error: " ++ trouble.message ++ "\n"))
    else (.broken trouble, g)

def commandOn (w : Surroundings) (level : Option String) (arguments : List String)
    (f : FileSystem) : Exit × FileSystem := ((execute level arguments : System Exit).run w).run f

theorem conclude_run {r : Except Trouble String} (h : Does w (run threshold s) f r g) :
    ((conclude threshold s : System Exit).run w).run f = concluded g r := by
  have hrun : ((run threshold s : ExceptT Trouble System String).run.run w).run f = (r, g) := h
  unfold conclude concluded
  rw [ReaderT.run_bind, StateT.run_bind, hrun]
  cases r with
  | ok document => rfl
  | error trouble =>
    show StateT.run (ReaderT.run (if _ then _ else _) w) g = _
    dsimp only
    split_ifs <;> rfl

section

variable {source : List Char} {document : String} {trouble : Trouble} {notes : List LogRecord}

theorem Partial.saying (h : Partial f g s source document) (text : String) :
    Partial f (g.saying text) s source document := by
  unfold Partial at h ⊢
  split_ifs at h ⊢
  · exact ⟨h.1.saying text, h.2⟩
  · obtain ⟨location, taken, ho, hsaved⟩ := h
    exact ⟨location, taken, ho, hsaved.saying text⟩

end

theorem eq_ok_of_toOption {ε α : Type} {x : Except ε α} {a : α} (h : x.toOption = some a) :
    x = .ok a := by
  cases x with
  | error e => cases h
  | ok b =>
    cases h
    rfl

end RuleLang.Command
