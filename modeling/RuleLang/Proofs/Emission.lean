import Mathlib.Tactic.Common
import RuleLang.Proofs.AllOrNothing
import RuleLang.Proofs.Documents

/-!
What the command emits. A document says what the text was described by and nothing else: it can be
read back, from the tree or the tokens to their last character and number, and its indentation
leaves no trace. So one text has one reading under all indentations, and two texts have one document
only if they are described alike.
-/
namespace RuleLang

namespace Json

/-- A code point of a text, which may be a surrogate, as it is written. -/
def point (n : Nat) : List Char := if n.isValidChar then escaped (Char.ofNat n) else unit n

def quotedPoints (ns : List Nat) : String := String.ofList ('"' :: (ns.flatMap point ++ ['"']))

theorem quotedPoints_text (s : String) : quotedPoints (s.toList.map Char.toNat) = quoted s := by
  have hpoint (c : Char) : point c.toNat = escaped c := by
    rw [point, if_pos (show c.toNat.isValidChar from c.valid), Char.ofNat_toNat]
  rw [quotedPoints, quoted, List.flatMap_map]
  simp only [hpoint]

end Json

namespace Command

variable {w : Surroundings} {threshold : Level} {s : Settings} {f g : FileSystem}
  {document : String}

/-- The command is given a text and emits a document for it. -/
def Emits (s : Settings) (source : List Char) (document : String) : Prop :=
  ∃ w threshold f g, Given w f s source ∧ Does w (run threshold s) f (.ok document) g

theorem run_ok (h : Does w (run threshold s) f (.ok document) g) : ∃ source content width,
    Describes w f s source content ∧ s.indent.width? = .ok width ∧
      document = content.document width := by
  rw [run_eq] at h
  obtain ⟨source, f₁, hsource, h⟩ := h.of_bind
  obtain ⟨content, f₂, hcontent, h⟩ := h.of_bind
  obtain ⟨document', f₃, hlay, h⟩ := h.of_bind
  obtain ⟨_, f₄, _, h⟩ := h.of_bind
  obtain rfl := Except.ok.inj (h.unique (does_pure document')).1
  have hlaid := ((layOut_does s.indent content).unique hlay).1
  cases hl : laidOut w s.indent content with
  | error e => rw [hl] at hlaid; cases hlaid
  | ok laid =>
    rw [hl] at hlaid
    cases hlaid
    obtain ⟨width, hw, -, rfl⟩ := laidOut_eq_ok.1 hl
    refine ⟨source, content, width, ⟨given_iff.2 ?_, ?_⟩, hw, rfl⟩
    · unfold sourceOf
      split_ifs at hsource ⊢
      · exact (does_pure _).unique hsource |>.1
      · exact readSource_ok hsource
    · obtain ⟨notes, hnotes⟩ := describe_does threshold s.tokens source
      have hok := ((hnotes w f₁).unique hcontent).1
      cases hc : contentOf s.tokens source with
      | error e => rw [hc] at hok; cases hok
      | ok content' =>
        rw [hc] at hok
        exact congrArg Except.ok (Except.ok.inj hok)

theorem Emits.content {source : List Char} (h : Emits s source document) : ∃ content width,
    contentOf s.tokens source = .ok content ∧ s.indent.width? = .ok width ∧
      document = content.document width := by
  obtain ⟨w, threshold, f, g, hgiven, hrun⟩ := h
  obtain ⟨source', content, width, hd, hw, hdocument⟩ := run_ok hrun
  have hsource := given_iff.1 hd.given
  rw [given_iff.1 hgiven] at hsource
  cases hsource
  exact ⟨content, width, hd.content, hw, hdocument⟩

theorem emits_literal {content : Json} {width : Option Int} (hl : s.literal = true)
    (hc : contentOf s.tokens s.source.toList = .ok content) (hw : s.indent.width? = .ok width)
    (hout : s.out.getD "" = "") : Emits s s.source.toList (content.document width) := by
  obtain ⟨notes, hnotes⟩ := describe_does .warning s.tokens s.source.toList
  let f : FileSystem := ⟨[], [], [], "", ""⟩
  have hdescribe := hnotes .generous f
  rw [hc] at hdescribe
  have hlaid : laidOut .generous s.indent content = .ok (content.document width) :=
    laidOut_eq_ok.2 ⟨width, hw, rfl, rfl⟩
  have hlay (f : FileSystem) := layOut_does (w := .generous) (f := f) s.indent content
  rw [hlaid] at hlay
  have hdeliver (f : FileSystem) (document : String) : ∃ g,
      Does .generous (deliver .warning s s.source.toList document) f (.ok ()) g := by
    have hshows : (Surroundings.generous.shows (screens s s.source.toList document) f.printed).1 =
        .ok () := by
      unfold screens
      split_ifs <;> rfl
    have h := display_does (w := .generous) (f := f) s s.source.toList document
    rw [hshows] at h
    rw [deliver, if_pos hout]
    exact ⟨_, h⟩
  obtain ⟨g, hg⟩ := hdeliver (f.saying (logged .warning notes)) (content.document width)
  refine ⟨.generous, .warning, f, g, .literal hl, ?_⟩
  rw [run_eq, if_pos hl]
  exact (does_pure _).bind (hdescribe.bind ((hlay _).bind (hg.bind (does_pure _))))

/-- Every document reads back as the tokens or trees of its text, and is written in line feeds and
characters from the space to the tilde. Its reading does not depend on the indentation, and texts
with one document are described alike. Every text that can be described has a document under every
indentation that has a width. -/
theorem document_lossless :
    (∀ s source document, Emits s source document → ∃ content,
      contentOf s.tokens source = .ok content ∧
      (∀ c ∈ document.toList, c = '\n' ∨ 0x20 ≤ c.toNat ∧ c.toNat ≤ 0x7e) ∧
      Json.read? document.toList = some content) ∧
    (∀ s s' source document document', s.tokens = s'.tokens → Emits s source document →
      Emits s' source document' →
        Json.read? document.toList = Json.read? document'.toList) ∧
    (∀ s s' source source' document, Emits s source document → Emits s' source' document →
      contentOf s.tokens source = contentOf s'.tokens source') ∧
    ∀ s content width, s.literal = true → s.out.getD "" = "" →
      contentOf s.tokens s.source.toList = .ok content → s.indent.width? = .ok width →
        ∃ document, Emits s s.source.toList document := by
  refine ⟨fun s source document h => ?_, fun s s' source document document' hmode h h' => ?_,
    fun s s' source source' document h h' => ?_,
    fun s content width hl hout hc hw => ⟨_, emits_literal hl hc hw hout⟩⟩
  · obtain ⟨content, width, hc, -, rfl⟩ := h.content
    exact ⟨content, hc, Json.write_plain width content 0, Json.read?_document width content⟩
  · obtain ⟨content, width, hc, -, rfl⟩ := h.content
    obtain ⟨content', width', hc', -, rfl⟩ := h'.content
    rw [hmode, hc'] at hc
    cases hc
    rw [Json.read?_document, Json.read?_document]
  · obtain ⟨content, width, hc, -, rfl⟩ := h.content
    obtain ⟨content', width', hc', -, hdocument⟩ := h'.content
    have hread := Json.read?_document width content
    rw [hdocument, Json.read?_document] at hread
    rw [hc, hc', Option.some.inj hread]

theorem document_lossless_escapes :
    let s (indent : Indentation) : Settings :=
      ⟨"\"\x7f😀\"", true, true, none, false, indent, false⟩
    let source := "\"\x7f😀\"".toList
    let content : Json := .array [.object [("type", .text "string"), ("value", .text "\x7f😀")]]
    Emits (s .single) source (content.document none) ∧
      Emits (s (.columns 2)) source (content.document (some 2)) ∧
      (∃ content', contentOf true source = .ok content' ∧
        (∀ c ∈ (content.document none).toList, c = '\n' ∨ 0x20 ≤ c.toNat ∧ c.toNat ≤ 0x7e) ∧
        Json.read? (content.document none).toList = some content') ∧
      Json.read? (content.document none).toList =
        Json.read? (content.document (some 2)).toList := by
  intro s source content
  have ht : tokenize source = .ok [⟨.string "\x7f😀", ⟨1, 0⟩⟩] :=
    eq_ok_of_toOption (by decide +kernel)
  have hc : contentOf true source = .ok content := by
    rw [contentOf, if_pos rfl, ht]
    rfl
  have h : Emits (s .single) source (content.document none) := emits_literal rfl hc rfl rfl
  have h' : Emits (s (.columns 2)) source (content.document (some 2)) :=
    emits_literal rfl hc rfl rfl
  exact ⟨h, h', document_lossless.1 _ _ _ h,
    document_lossless.2.1 (s .single) (s (.columns 2)) _ _ _ rfl h h'⟩

/-- An empty text has a document, but none at a width of more than 64 bits. And the surrogates of a
character, as two code points, are written like the character itself. -/
theorem document_not_lossless :
    Emits ⟨"", true, false, none, false, .columns 2, false⟩ [] "[]" ∧
    (∀ document,
      ¬ Emits ⟨"", true, false, none, false, .columns 0x8000000000000000, false⟩ [] document) ∧
    [0xd83d, 0xde00] ≠ "😀".toList.map Char.toNat ∧
    Json.quotedPoints [0xd83d, 0xde00] = Json.quoted "😀" := by
  have hpair : Json.quotedPoints [0xd83d, 0xde00] =
      Json.quotedPoints ("😀".toList.map Char.toNat) := by decide +kernel
  refine ⟨?_, fun document h => ?_, by decide, hpair.trans (Json.quotedPoints_text _)⟩
  · have hc : contentOf false "".toList = .ok (.array []) := by
      have hp : parse "".toList = .ok [] := rfl
      rw [contentOf, if_neg (by decide), hp]
      rfl
    exact emits_literal (s := ⟨"", true, false, none, false, .columns 2, false⟩) rfl hc rfl rfl
  · obtain ⟨_, width, -, hw, -⟩ := h.content
    rw [Indentation.width?, if_pos (by decide)] at hw
    cases hw

end Command

end RuleLang
