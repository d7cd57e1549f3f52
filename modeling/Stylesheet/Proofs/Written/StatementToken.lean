import Stylesheet.Proofs.Written.SelectorToken

/-!
# The tokens of a rendered document

Media queries and declarations are written as their parts, and blocks stand between braces. A
statement ends by itself, so that anything may follow it (`Entry.lexes_toText`). In a document
the statements stand between newlines, and any number of newlines is one blank (`Spread`).
-/

namespace Stylesheet

/-- What the values of a part have to satisfy. -/
def CleanValues (vs : List Value) : Prop := ∀ v ∈ vs, v.IsClean

instance (vs : List Value) : Decidable (CleanValues vs) :=
  inferInstanceAs (Decidable (∀ v ∈ vs, v.IsClean))

/-! ## Media queries -/

namespace MediaFeature

/-- The tokens that a feature is written as. -/
def kinds (f : MediaFeature) : List TokenKind :=
  .opening .paren :: ((.ident f.name ::
    (f.value.map fun v => .colon :: .whitespace :: v.kinds).getD []) ++ [.closing .paren])

theorem lexes_toText {f : MediaFeature} (h : isPlainName f.name = true)
    (hv : ∀ v ∈ f.value, v.IsShaped false ∧ v.IsClean) (rest : List Char) :
    Lexes f.toText.toList f.kinds rest := by
  have block {inner : List Char} {ks : List TokenKind} (hi : Lexes inner ks ([')'] ++ rest)) :
      Lexes (['('] ++ (inner ++ [')'])) (.opening .paren :: (ks ++ [.closing .paren])) rest :=
    .block (b := .paren) (Lexeme.readAs_mark rfl) rfl (fun _ _ hl => Lexes.quotedUrl?_opening hl _) hi
  obtain ⟨name, value⟩ := f
  cases value with
  | none =>
    have e : (toText ⟨name, none⟩).toList = ['('] ++ (name.toList ++ [')']) := by simp [toText]
    rw [e]
    exact block (.plain h (.cons (by decide) rest))
  | some v =>
    obtain ⟨hs, hc⟩ := hv v rfl
    have e : (toText ⟨name, some v⟩).toList =
        ['('] ++ ((name.toList ++ ([':'] ++ ([' '] ++ v.toText.toList))) ++ [')']) := by
      simp [toText]
    have value : Lexes v.toText.toList v.kinds ([')'] ++ rest) :=
      Stylesheet.lexes_toText false v hs hc (by simp [Delimited, delimiters])
    have front := Lexes.gap ((startsValue_toText false v hs).startsSolid.append ([')'] ++ rest))
    rw [e]
    exact block ((Lexes.plain h (.cons (by decide) _)).append
      ((Lexes.colon _).append (front.append value)))

end MediaFeature

namespace MediaQuery

def qualifierKinds : Option Qualifier → List TokenKind
  | none => []
  | some .only => [.ident "only", .whitespace]
  | some .not => [.ident "not", .whitespace]

/-- The tokens in front of a further part of a query. -/
def andKinds : List TokenKind := [.whitespace, .ident "and", .whitespace]

/-- The parts of a query that are joined, each with its tokens. -/
def parts (q : MediaQuery) : List (String × List TokenKind) :=
  q.mediaType.toList.map (fun m => (m, [.ident m])) ++ q.features.map fun f => (f.toText, f.kinds)

/-- The tokens that a query is written as. -/
def kinds (q : MediaQuery) : List TokenKind :=
  qualifierKinds q.qualifier ++ separatedKinds andKinds (q.parts.map Prod.snd)

theorem parts_ne_nil {q : MediaQuery} (hs : q.IsShaped) : q.parts ≠ [] := by
  intro e
  obtain ⟨hm, hf⟩ := List.append_eq_nil_iff.1 e
  rw [List.map_eq_nil_iff, Option.toList_eq_nil_iff] at hm
  exact (hs.filled hm).2 (List.map_eq_nil_iff.1 hf)

theorem lexes_toText {q : MediaQuery} (h : q.isPlain = true) (hs : q.IsShaped)
    (hc : CleanValues q.values) {rest : List Char} (hr : EndsPart rest) :
    StartsSolid q.toText.toList ∧ Lexes q.toText.toList q.kinds rest := by
  simp only [isPlain, Bool.and_eq_true] at h
  obtain ⟨hmedium, hfeatures⟩ := h
  have parts : ∀ x ∈ q.parts, ∀ rest, EndsPart rest →
      StartsSolid x.1.toList ∧ Lexes x.1.toList x.2 rest := by
    intro x hx rest hr
    rcases List.mem_append.1 hx with hx | hx
    · obtain ⟨m, hm, rfl⟩ := List.mem_map.1 hx
      have hm : isPlainName m = true := by
        rw [Option.mem_toList.1 hm] at hmedium
        exact hmedium
      exact ⟨.plain hm, .plain hm hr.endsName⟩
    · obtain ⟨f, hf, rfl⟩ := List.mem_map.1 hx
      refine ⟨?_, MediaFeature.lexes_toText (List.all_eq_true.1 hfeatures f hf) (fun v hv => ?_) rest⟩
      · obtain ⟨name, value⟩ := f
        cases value <;> exact ⟨'(', _, by simp [MediaFeature.toText]; rfl, rfl⟩
      · have hm : v ∈ q.values := List.mem_filterMap.2 ⟨f, hf, hv⟩
        exact ⟨hs.values v hm, hc v hm⟩
  have word {s : String} (hw : isPlainName s = true) (rest : List Char) :
      Lexes s.toList [.ident s] (' ' :: rest) := .plain hw (.cons (by decide) rest)
  have blank (rest : List Char) : Lexes [' '] [.whitespace] ("and".toList ++ [' '] ++ rest) :=
    .gap (.cons (by decide) _)
  have joined := lexes_intercalate " and " andKinds
    (fun rest hr => (blank rest).append ((word (by decide) rest).append (.gap hr)))
    (fun _ => EndsPart.cons (c := ' ') (by decide) _) (parts_ne_nil hs) parts hr
  have e : q.parts.map Prod.fst = q.mediaType.toList ++ q.features.map MediaFeature.toText := by
    simp [MediaQuery.parts, Function.comp_def]
  rw [e] at joined
  rw [toText, kinds, String.toList_append]
  generalize (String.intercalate " and " (q.mediaType.toList ++
    q.features.map MediaFeature.toText)).toList = text at joined ⊢
  cases q.qualifier with
  | none => exact joined
  | some qualifier =>
    have hq : Lexes qualifier.toText.toList (qualifierKinds (some qualifier)) (text ++ rest) := by
      cases qualifier with
      | only => exact (word (s := "only") (by decide) _).append (.gap (joined.1.append rest))
      | not => exact (word (s := "not") (by decide) _).append (.gap (joined.1.append rest))
    refine ⟨StartsSolid.append ?_ _, hq.append joined.2⟩
    cases qualifier <;> exact ⟨_, _, rfl, rfl⟩

end MediaQuery

/-! ## Blocks -/

/-- A chunk between braces. -/
theorem Lexes.braces {inner rest : List Char} {ks : List TokenKind}
    (hi : Lexes inner ks ('\x7d' :: rest)) :
    Lexes (['\x7b'] ++ (inner ++ ['\x7d'])) (.opening .brace :: (ks ++ [.closing .brace])) rest :=
  .block (b := .brace) (Lexeme.readAs_mark rfl) rfl (fun _ _ hl => quotedUrl?_opening hl _) hi

namespace Declaration

/-- The tokens that a declaration is written as. -/
def kinds (d : Declaration) : List TokenKind :=
  .ident d.name :: .colon :: .whitespace ::
    (d.value.kinds ++ if d.important then [.whitespace, .important] else [])

theorem lexes_toText {d : Declaration} (h : d.isPlain = true) (hs : d.value.IsShaped false)
    (hc : d.value.IsClean) (rest : List Char) :
    Lexes d.toText.toList d.kinds (';' :: rest) := by
  generalize hi : (if d.important then " !important" else "").toList = ending
  have e : d.toText.toList = d.name.toList ++ ([':'] ++ ([' '] ++ (d.value.toText.toList ++ ending))) := by
    rw [← hi]
    simp [toText]
  have hend : Delimited (ending ++ ';' :: rest) ∧
      Lexes ending (if d.important then [.whitespace, .important] else []) (';' :: rest) := by
    rw [← hi]
    cases d.important with
    | true =>
      exact ⟨by simp [Delimited, delimiters], (Lexes.gap (.cons rfl _)).append
        (.of_inert (Lexeme.readAs_important rest) rfl)⟩
    | false => exact ⟨by simp [Delimited, delimiters], .nil _⟩
  have value := (Stylesheet.lexes_toText false d.value hs hc hend.1).append hend.2
  have front := Lexes.gap
    (((startsValue_toText false d.value hs).startsSolid.append ending).append (';' :: rest))
  rw [e]
  exact (Lexes.plain h (.cons (by decide) _)).append ((Lexes.colon _).append (front.append value))

/-- The tokens of a block. -/
def blockKinds (ds : List Declaration) : List TokenKind :=
  .opening .brace ::
    ((ds.flatMap (fun d => .whitespace :: (d.kinds ++ [.semicolon])) ++ [.whitespace]) ++
      [.closing .brace])

theorem lexes_block {head : String} {ks : List TokenKind} {ds : List Declaration}
    (hh : ∀ rest, Lexes head.toList ks (' ' :: rest))
    (h : ∀ d ∈ ds, d.isPlain = true ∧ d.value.IsShaped false ∧ d.value.IsClean)
    (rest : List Char) :
    Lexes (blockText head ds).toList (ks ++ .whitespace :: blockKinds ds) rest := by
  have e : (blockText head ds).toList = head.toList ++ ([' '] ++ (['\x7b'] ++
      ((ds.flatMap (fun d => ([' '] ++ (d.toText.toList ++ [';']))) ++ [' ']) ++ ['\x7d']))) := by
    simp [blockText, List.flatMap_map]
  have declarations := Lexes.flatMap (fun d : Declaration => [' '] ++ (d.toText.toList ++ [';']))
    (fun d => [.whitespace] ++ (d.kinds ++ [.semicolon])) (fun _ => True) ds
    (fun d hd rest _ => by
      obtain ⟨hplain, hs, hc⟩ := h d hd
      have solid : StartsSolid (d.toText.toList ++ [';'] ++ rest) := by
        rw [toText, String.toList_append, String.toList_append, String.toList_append]
        simp only [List.append_assoc]
        exact (StartsSolid.plain hplain).append _
      exact (Lexes.gap solid).append ((lexes_toText hplain hs hc rest).append
        (.of_inert (Lexeme.readAs_mark rfl) rfl)))
    (fun _ _ _ => trivial) ([' '] ++ '\x7d' :: rest) trivial
  have inner := declarations.2.append (Lexes.gap (StartsSolid.cons (by decide) rest))
  rw [e]
  exact (hh _).append ((Lexes.gap (.cons (by decide) _)).append (.braces inner))

end Declaration

/-! ## Statements -/

/-- The tokens that a font face is written as. -/
def FontFace.kinds (f : FontFace) : List TokenKind :=
  .atKeyword "font-face" :: .whitespace :: Declaration.blockKinds f.descriptors

/-- What is asked of a font face that is written. -/
structure FontFace.IsReadable (f : FontFace) : Prop where
  plain : f.isPlain = true
  shaped : f.IsShaped
  clean : CleanValues f.values

/-- The tokens that a namespace is written as. -/
def Namespace.kinds (n : Namespace) : List TokenKind :=
  .atKeyword "namespace" :: .whitespace ::
    ((n.nsPrefix.map fun p => [.ident p, .whitespace]).getD [] ++ [.string n.address, .semicolon])

namespace Rule

def styleKinds (r : Rule) : List TokenKind :=
  separatedKinds commaKinds (r.selectors.map Selector.kinds) ++
    .whitespace :: Declaration.blockKinds r.declarations

/-- The tokens that a rule is written as, with the block of its queries around it. -/
def kinds (r : Rule) : List TokenKind :=
  if r.media.isEmpty then r.styleKinds
  else
    .atKeyword "media" :: .whitespace ::
      (separatedKinds commaKinds (r.media.map MediaQuery.kinds) ++
        .whitespace :: .opening .brace ::
          ((.whitespace :: (r.styleKinds ++ [.whitespace])) ++ [.closing .brace]))

/-- What is asked of a rule that is written. -/
structure IsReadable (r : Rule) : Prop where
  plain : r.isPlain = true
  shaped : r.IsShaped
  clean : CleanValues r.values

theorem lexes_styleText {r : Rule} (h : r.IsReadable) (rest : List Char) :
    StartsSolid r.styleText.toList ∧ Lexes r.styleText.toList r.styleKinds rest := by
  have hp := h.plain
  simp only [isPlain, Bool.and_eq_true] at hp
  obtain ⟨⟨hselectors, hdeclarations⟩, -⟩ := hp
  have selectors (rest : List Char) := lexes_commas Selector.toText h.shaped.filled
    (fun s hs _ hr => Selector.lexes_toText (List.all_eq_true.1 hselectors s hs)
      (h.shaped.selectors s hs) hr) (EndsPart.cons (c := ' ') (by decide) rest)
  have declarations : ∀ d ∈ r.declarations,
      d.isPlain = true ∧ d.value.IsShaped false ∧ d.value.IsClean := fun d hd =>
    ⟨List.all_eq_true.1 hdeclarations d hd, h.shaped.declarations d hd,
      h.clean _ (List.mem_append_right _ (List.mem_map_of_mem hd))⟩
  have block := Declaration.lexes_block (fun rest => (selectors rest).2) declarations rest
  refine ⟨?_, block⟩
  rw [styleText, Declaration.blockText, String.toList_append, String.toList_append,
    String.toList_append]
  simp only [List.append_assoc]
  exact (selectors []).1.append _

theorem lexes_toText {r : Rule} (h : r.IsReadable) (rest : List Char) :
    StartsSolid r.toText.toList ∧ Lexes r.toText.toList r.kinds rest := by
  by_cases hm : r.media = []
  · have he : r.media.isEmpty = true := List.isEmpty_iff.2 hm
    rw [toText, kinds, if_pos he, if_pos he]
    exact lexes_styleText h rest
  · have he : r.media.isEmpty = false := by simpa using hm
    have hp := h.plain
    simp only [isPlain, Bool.and_eq_true] at hp
    have queries (rest : List Char) := lexes_commas MediaQuery.toText hm
      (fun q hq _ hr => MediaQuery.lexes_toText (List.all_eq_true.1 hp.2 q hq) (h.shaped.media q hq)
        (fun v hv => h.clean v (List.mem_append_left _ (List.mem_flatMap.2 ⟨q, hq, hv⟩))) hr)
      (EndsPart.cons (c := ' ') (by decide) rest)
    have style (rest : List Char) := lexes_styleText h rest
    have e : r.toText.toList = "@media".toList ++ ([' '] ++
        ((String.intercalate ", " (r.media.map MediaQuery.toText)).toList ++ ([' '] ++ (['\x7b'] ++
          (([' '] ++ (r.styleText.toList ++ [' '])) ++ ['\x7d']))))) := by
      rw [toText, he, if_neg (by simp)]
      simp
    have front := Lexes.gap (((style []).1.append [' ']).append ('\x7d' :: rest))
    have inner := front.append ((style ([' '] ++ '\x7d' :: rest)).2.append
      (Lexes.gap (StartsSolid.cons (by decide) rest)))
    rw [e, kinds, he, if_neg (by simp)]
    refine ⟨.cons (by decide) _, ?_⟩
    have keyword (rest : List Char) : Lexes "@media".toList [.atKeyword "media"] (' ' :: rest) :=
      .of_inert (Lexeme.readAs_atKeyword (s := "media") (by decide) (.cons (by decide) _)) rfl
    have block := (Lexes.gap (.cons (by decide) _)).append (Lexes.braces inner)
    have queryBlock := (queries _).2.append block
    exact (keyword _).append ((Lexes.gap (((queries []).1.append _).append rest)).append queryBlock)

end Rule

theorem FontFace.lexes_toText {f : FontFace} (h : f.IsReadable) (rest : List Char) :
    StartsSolid f.toText.toList ∧ Lexes f.toText.toList f.kinds rest := by
  have hplain : ∀ d ∈ f.descriptors, d.isPlain = true := List.all_eq_true.1 h.plain
  have keyword (rest : List Char) :
      Lexes "@font-face".toList [.atKeyword "font-face"] (' ' :: rest) :=
    .of_inert (Lexeme.readAs_atKeyword (s := "font-face") (by decide) (.cons (by decide) _)) rfl
  refine ⟨?_, Declaration.lexes_block keyword (fun d hd => ?_) rest⟩
  · rw [toText, Declaration.blockText, String.toList_append, String.toList_append,
      String.toList_append]
    exact .cons (by decide) _
  · have hm : d.value ∈ f.values := List.mem_map_of_mem hd
    exact ⟨hplain d hd, h.shaped.values _ hm, h.clean _ hm⟩

theorem Namespace.lexes_toText {n : Namespace} (h : n.isPlain = true) (rest : List Char) :
    StartsSolid n.toText.toList ∧ Lexes n.toText.toList n.kinds rest := by
  simp only [isPlain, Bool.and_eq_true] at h
  obtain ⟨hname, haddress⟩ := h
  have keyword (rest : List Char) :
      Lexes "@namespace".toList [.atKeyword "namespace"] (' ' :: rest) :=
    .of_inert (Lexeme.readAs_atKeyword (s := "namespace") (by decide) (.cons (by decide) _)) rfl
  have address : Lexes ('"' :: (n.address.toList ++ ['"']) ++ [';'])
      ([.string n.address] ++ [.semicolon]) rest :=
    (Lexes.bareString haddress _).append (.of_inert (Lexeme.readAs_mark rfl) rfl)
  have behind (rest : List Char) : Lexes [' '] [.whitespace] ('"' :: rest) :=
    .gap (.cons (by decide) rest)
  obtain ⟨nsPrefix, content, span⟩ := n
  cases nsPrefix with
  | none =>
    have e : (toText ⟨none, content, span⟩).toList = "@namespace".toList ++ ([' '] ++
        ('"' :: (content.toList ++ ['"']) ++ [';'])) := by simp [toText]
    rw [e]
    exact ⟨.cons (by decide) _, (keyword _).append ((behind _).append address)⟩
  | some p =>
    have hp : isPlainName p = true := hname
    have e : (toText ⟨some p, content, span⟩).toList = "@namespace".toList ++ ([' '] ++
        (p.toList ++ ([' '] ++ ('"' :: (content.toList ++ ['"']) ++ [';'])))) := by simp [toText]
    have name := (Lexes.plain hp (.cons (by decide) _)).append ((behind _).append address)
    have front := Lexes.gap (((StartsSolid.plain hp).append
      ([' '] ++ ('"' :: (content.toList ++ ['"']) ++ [';']))).append rest)
    rw [e]
    exact ⟨.cons (by decide) _, (keyword _).append (front.append name)⟩

/-! ## Documents -/

/-- A statement of a rendered document. -/
inductive Entry where
  | binding (n : Namespace)
  | face (f : FontFace)
  | rule (r : Rule)

namespace Entry

def toText : Entry → String
  | .binding n => n.toText
  | .face f => f.toText
  | .rule r => r.toText

def kinds : Entry → List TokenKind
  | .binding n => n.kinds
  | .face f => f.kinds
  | .rule r => r.kinds

/-- What is asked of a statement that is written. -/
def IsReadable : Entry → Prop
  | .binding n => n.isPlain = true
  | .face f => f.IsReadable
  | .rule r => r.IsReadable

theorem lexes_toText {e : Entry} (h : e.IsReadable) (rest : List Char) :
    StartsSolid e.toText.toList ∧ Lexes e.toText.toList e.kinds rest := by
  cases e with
  | binding n => exact Namespace.lexes_toText h rest
  | face f => exact FontFace.lexes_toText h rest
  | rule r => exact Rule.lexes_toText h rest

end Entry

/-- The statements of a document in the order in which they are rendered. -/
def Document.entries (d : Document) : List Entry :=
  d.namespaces.map .binding ++ (d.fontFaces.map .face ++ d.rules.map .rule)

/-- Texts of statements with newlines between and around them, in any number. -/
inductive Spread : List Char → List Entry → Prop where
  | nil : Spread [] []
  | newline {text es} : Spread text es → Spread ('\n' :: text) es
  | entry {text es} (e : Entry) : Spread text es → Spread (e.toText.toList ++ text) (e :: es)

namespace Spread

theorem append {a b : List Char} {es fs : List Entry} (ha : Spread a es) (hb : Spread b fs) :
    Spread (a ++ b) (es ++ fs) := by
  induction ha with
  | nil => exact hb
  | newline _ ih => exact ih.newline
  | entry e _ ih =>
    rw [List.append_assoc]
    exact ih.entry e

theorem intercalate (es : List Entry) :
    Spread (String.intercalate "\n" (es.map Entry.toText)).toList es := by
  cases es with
  | nil => exact .nil
  | cons e es =>
    rw [List.map_cons, String.toList_intercalate_cons, List.flatMap_map]
    refine .entry e ?_
    induction es with
    | nil => exact .nil
    | cons f es ih => exact (ih.entry f).newline

end Spread

theorem Document.spread_render (d : Document) : Spread d.render.toList d.entries := by
  have hn := Spread.intercalate (d.namespaces.map .binding)
  have hf := Spread.intercalate (d.fontFaces.map .face)
  have hr := Spread.intercalate (d.rules.map .rule)
  rw [List.map_map] at hn hf hr
  have h := hn.append (hf.append hr.newline).newline
  simp only [render, String.toList_append, List.append_assoc]
  exact h

/-- Tokens of statements with blanks between and around them, in any number. -/
inductive SpreadKinds : List TokenKind → List Entry → Prop where
  | nil : SpreadKinds [] []
  | blank {ks es} : SpreadKinds ks es → SpreadKinds (.whitespace :: ks) es
  | entry {ks es} (e : Entry) : SpreadKinds ks es → SpreadKinds (e.kinds ++ ks) (e :: es)

/-- Newlines in front of a text are one blank, however many there are. -/
theorem Spread.lexes {text : List Char} {es : List Entry} (h : Spread text es)
    (hes : ∀ e ∈ es, e.IsReadable) (n : Nat) :
    ∃ ks, SpreadKinds ks es ∧ Lexes (List.replicate n '\n' ++ text) ks [] := by
  induction h generalizing n with
  | nil =>
    rw [List.append_nil]
    cases n with
    | zero => exact ⟨[], .nil, .nil []⟩
    | succ n => exact ⟨[.whitespace], .blank .nil, .of_inert (Lexeme.readAs_newlines n nofun) rfl⟩
  | @newline text es _ ih =>
    obtain ⟨ks, hks, hlex⟩ := ih hes (n + 1)
    refine ⟨ks, hks, ?_⟩
    rwa [List.replicate_succ', List.append_assoc] at hlex
  | @entry text es e _ ih =>
    obtain ⟨he, hes⟩ := List.forall_mem_cons.1 hes
    obtain ⟨ks, hks, hlex⟩ := ih hes 0
    have hrest : Lexes (e.toText.toList ++ text) (e.kinds ++ ks) [] :=
      (Entry.lexes_toText he _).2.append hlex
    cases n with
    | zero => exact ⟨_, .entry e hks, hrest⟩
    | succ n =>
      -- a statement begins with no blank, so the newlines are one token by themselves
      obtain ⟨c, cs, hc, hb⟩ := (Entry.lexes_toText he []).1
      have front : Lexes (List.replicate (n + 1) '\n') [.whitespace] (e.toText.toList ++ text ++ []) := by
        refine .of_inert (Lexeme.readAs_newlines n fun d hd => ?_) rfl
        rw [hc] at hd
        cases hd
        exact hb
      exact ⟨_, .blank (.entry e hks), front.append hrest⟩

end Stylesheet
