import Stylesheet.Parse
import Stylesheet.Proofs.Problem.Semantic
import Stylesheet.Proofs.Problem.Syntactic
import Stylesheet.Proofs.Token.Depth

/-!
# What a whole parse reports

A parse adds its problems to a sink behind those that are there, stage by stage, and what it adds does
not depend on them (`Stream.parseInto_eq`). With the stages put together, the problems tell whether
there is a document (`Stream.parseInto_outcome`), and whatever stage a problem comes from, its message
can be written in full (`Stream.parseInto_messages`).
-/

namespace Stylesheet

theorem Sink.addAll_eq (sink : Sink) (ps : List Problem) : sink.addAll ps = sink ++ ps := by
  induction ps generalizing sink with
  | nil => exact (List.append_nil sink).symm
  | cons p ps ih =>
    calc sink.addAll (p :: ps) = (sink.add p).addAll ps := rfl
      _ = (sink ++ [p]) ++ ps := ih (sink.add p)
      _ = sink ++ p :: ps := by rw [List.append_assoc, List.singleton_append]

/-- The sink ends with what the report says. -/
theorem Stream.parseInto_eq (s : Stream) (options : Options) (sink : Sink) :
    s.parseInto options sink = ((s.parse options).document, sink ++ (s.parse options).problems) := by
  unfold parseInto parse
  cases s.text with
  | error e => simp only [Sink.addAll_eq, failedReport, aborted]
  | ok text =>
    simp only [Sink.addAll_eq, parseText]
    cases (tokenize s.name text.toList options).tooDeep with
    | some e => simp only [tooDeepReport, aborted, Report.behind, List.append_assoc]
    | none => simp only [parseFrom, Report.behind, List.append_assoc]

/-- Where the nesting limit is kept, there is a document, and each stage adds its problems. -/
theorem parseText_document {source text : String} {options : Options}
    (h : (tokenize source text.toList options).tooDeep = none) :
    let stream := tokenize source text.toList options
    let parsing := parseTokens source stream.tokens
    let building := buildDocument source stream.tokens parsing.tree options
    (parseText source text options).document = some building.document ∧
      (parseText source text options).problems =
        stream.problems ++ parsing.problems ++ building.problems := by
  simp only [parseText, h, parseFrom, Report.behind, List.append_assoc, and_self]

/-- Where it is not kept, the last problem says so. -/
theorem parseText_problems_tooDeep {source text : String} {options : Options} {e : TooDeep}
    (h : (tokenize source text.toList options).tooDeep = some e) :
    (parseText source text options).problems = (tokenize source text.toList options).problems ++
      [.ofParams .nestingTooDeep source (.point e.position) [("limit", toString e.limit)]] := by
  simp only [parseText, h, tooDeepReport, aborted, Report.behind]

/-- There is no document then, and the problem names the limit. -/
theorem parseText_tooDeep {source text : String} {options : Options} {e : TooDeep}
    (h : (tokenize source text.toList options).tooDeep = some e) :
    (parseText source text options).document = none ∧ ∃ p : Problem,
      (parseText source text options).problems =
        (tokenize source text.toList options).problems ++ [p] ∧
      p.kind = .nestingTooDeep ∧ p.param? "limit" = some (toString options.maxNestingDepth) := by
  refine ⟨?_, _, parseText_problems_tooDeep h, rfl, ?_⟩
  · simp only [parseText, h, tooDeepReport, aborted, Report.behind]
  · rw [← tokenize_limit h]
    rfl

theorem AllOfClass.kind_ne {c : ProblemClass} {ps : List Problem} (h : AllOfClass c ps)
    {kind : ProblemKind} (hc : kind.problemClass ≠ c) : ∀ p ∈ ps, p.kind ≠ kind := by
  intro p hp e
  apply hc
  rw [← h p hp, e]

/-- Where the nesting limit is kept, all problems are of the characters, the grammar or the meaning. -/
theorem parseText_kind_ne {source text : String} {options : Options}
    (h : (tokenize source text.toList options).tooDeep = none) {kind : ProblemKind}
    (hk : kind.problemClass = .internal) :
    ∀ p ∈ (parseText source text options).problems, p.kind ≠ kind := by
  obtain ⟨hsyntactic, -, -⟩ := reports_tokenize h
  have hsemantic := buildDocument_class source (tokenize source text.toList options).tokens
    (parseTokens source (tokenize source text.toList options).tokens).tree options
  intro p hp
  rw [(parseText_document h).2] at hp
  rcases List.mem_append.1 hp with hp | hp
  · rcases List.mem_append.1 hp with hp | hp
    · exact (tokenize_class source text.toList options).kind_ne (by rw [hk]; decide) p hp
    · exact hsyntactic.kind_ne (by rw [hk]; decide) p hp
  · exact hsemantic.kind_ne (by rw [hk]; decide) p hp

/-- That the limit is not kept is reported exactly where the text has more blocks inside one another. -/
theorem parseText_nestingTooDeep_iff {source text : String} {options : Options} :
    (∃ p ∈ (parseText source text options).problems, p.kind = .nestingTooDeep) ↔
      options.maxNestingDepth < nestingDepth text.toList := by
  have hlimit := @tokenize_tooDeep_eq_none_iff source text.toList options
  rw [← Nat.not_le, ← hlimit]
  cases h : (tokenize source text.toList options).tooDeep with
  | none =>
    refine iff_of_false ?_ (not_not.2 rfl)
    rintro ⟨p, hp, hk⟩
    exact parseText_kind_ne h rfl p hp hk
  | some e =>
    refine iff_of_true ?_ (by simp)
    obtain ⟨-, p, hp, hk, -⟩ := parseText_tooDeep h
    exact ⟨p, by rw [hp]; simp, hk⟩

/-- A stream that gives its text is parsed in one way whatever the sink holds: `found` is added to it.
    With a document these are problems of the characters, then of the grammar, then of the meaning,
    the former two each in reading order. Without one they are problems of the characters, and one
    that names the nesting limit. That the work itself failed is never reported. -/
theorem Stream.parseInto_outcome (s : Stream) {text : String} (h : s.text = .ok text)
    (options : Options) :
    ∃ (document : Option Document) (found : List Problem),
      (∀ sink, s.parseInto options sink = (document, sink ++ found)) ∧
      (document.isSome = true → ∃ lexical syntactic semantic,
        found = lexical ++ syntactic ++ semantic ∧ AllOfClass .lexical lexical ∧
        AllOfClass .syntactic syntactic ∧ AllOfClass .semantic semantic ∧
        InReadingOrder lexical ∧ InReadingOrder syntactic) ∧
      (document = none → ∃ lexical p, found = lexical ++ [p] ∧ AllOfClass .lexical lexical ∧
        p.kind = .nestingTooDeep ∧
        p.param? "limit" = some (toString options.maxNestingDepth)) ∧
      ∀ p ∈ found, p.kind ≠ .unexpectedException := by
  have hparse : (s.parse options).document = (parseText s.name text options).document ∧
      (s.parse options).problems = (parseText s.name text options).problems := by
    simp only [parse, h, and_self]
  refine ⟨_, _, s.parseInto_eq options, ?_⟩
  rw [hparse.1, hparse.2]
  have hlexical := tokenize_class s.name text.toList options
  cases hd : (tokenize s.name text.toList options).tooDeep with
  | some e =>
    obtain ⟨hnone, p, hp, hkind, hlimit⟩ := parseText_tooDeep hd
    rw [hnone, hp]
    refine ⟨fun hs => absurd hs (by simp), fun _ => ⟨_, p, rfl, hlexical, hkind, hlimit⟩, ?_⟩
    intro q hq
    rcases List.mem_append.1 hq with hq | hq
    · exact hlexical.kind_ne (by decide) q hq
    · rw [List.mem_singleton.1 hq, hkind]
      decide
  | none =>
    obtain ⟨hsome, hp⟩ := parseText_document hd
    obtain ⟨hsyntactic, horder, -⟩ := reports_tokenize hd
    have hsemantic := buildDocument_class s.name (tokenize s.name text.toList options).tokens
      (parseTokens s.name (tokenize s.name text.toList options).tokens).tree options
    have hnever : ∀ p ∈ (parseText s.name text options).problems, p.kind ≠ .unexpectedException :=
      parseText_kind_ne hd rfl
    rw [hsome]
    rw [hp] at hnever ⊢
    exact ⟨fun _ => ⟨_, _, _, rfl, hlexical, hsyntactic, hsemantic, tokenize_inReadingOrder hd,
      horder⟩, fun hn => absurd hn (by simp), hnever⟩

/-- Something wrong at every stage: a declaration without a value, a prefix that nothing binds, a
    character that is dropped, and a string without an end. -/
def troubledStream : Stream :=
  ⟨"troubled.css", .ok "@import x; a { b: ; } q|c { d: e } ^ \"f"⟩

/-- All that is wrong with it is found, and there is a document all the same. -/
theorem Stream.parseInto_outcome_troubledStream :
    ∃ (document : Option Document) (lexical syntactic semantic : List Problem),
      (∀ sink, troubledStream.parseInto .standard sink =
        (document, sink ++ (lexical ++ syntactic ++ semantic))) ∧
      document.isSome = true ∧ AllOfClass .lexical lexical ∧ AllOfClass .syntactic syntactic ∧
      AllOfClass .semantic semantic ∧ InReadingOrder lexical ∧ InReadingOrder syntactic ∧
      ((troubledStream.parseInto .standard []).2.map (·.kind.code) =
        [1001, 1002, 1014, 1013, 1442, 1446]) := by
  have hd : (troubledStream.parseInto .standard []).1.isSome = true := by decide +kernel
  have hkinds : (troubledStream.parseInto .standard []).2.map (·.kind.code) =
      [1001, 1002, 1014, 1013, 1442, 1446] := by decide +kernel
  obtain ⟨document, found, hsink, hsome, -, -⟩ := troubledStream.parseInto_outcome rfl .standard
  have hs : document.isSome = true := by
    rw [hsink] at hd
    exact hd
  obtain ⟨lexical, syntactic, semantic, rfl, h⟩ := hsome hs
  exact ⟨document, lexical, syntactic, semantic, hsink, hs, h.1, h.2.1, h.2.2.1, h.2.2.2.1,
    h.2.2.2.2, hkinds⟩

/-! ## Messages -/

theorem parseText_isComplete (source text : String) (options : Options) :
    ∀ p ∈ (parseText source text options).problems, p.IsComplete source := by
  intro p hp
  have hlexical := tokenize_isComplete source text.toList options
  cases hd : (tokenize source text.toList options).tooDeep with
  | some e =>
    rw [parseText_problems_tooDeep hd] at hp
    rcases List.mem_append.1 hp with hp | hp
    · exact hlexical p hp
    · rw [List.mem_singleton.1 hp]
      exact Problem.isComplete_ofParams rfl
  | none =>
    obtain ⟨-, -, hsyntactic⟩ := reports_tokenize hd
    rw [(parseText_document hd).2] at hp
    rcases List.mem_append.1 hp with hp | hp
    · rcases List.mem_append.1 hp with hp | hp
      · exact hlexical p hp
      · exact hsyntactic p hp
    · exact buildDocument_isComplete _ _ _ _ p hp

/-- What a parse adds to a sink comes from its source and has a value for each marker of its kind's
    template and for nothing else; and the message of a problem, whatever values it has, is the
    template with these values in their places, and the markers of the places that have none. -/
theorem Stream.parseInto_messages (s : Stream) (options : Options) (sink : Sink) :
    (∃ found, (s.parseInto options sink).2 = sink ++ found ∧ ∀ p ∈ found, p.IsComplete s.name) ∧
      (∀ (kind : ProblemKind) (name : String),
        name ∈ kind.template.places ↔ HoldsMarker kind.template.source.toList name) ∧
      ∀ p : Problem, p.message = p.kind.template.fill p.param? := by
  refine ⟨⟨_, congrArg Prod.snd (s.parseInto_eq options sink), ?_⟩,
    fun kind => Template.mem_places_iff kind.isPlain_template, Problem.message_eq⟩
  unfold parse
  cases s.text with
  | error e =>
    intro p hp
    rw [List.mem_singleton.1 hp]
    exact Problem.isComplete_ofParams rfl
  | ok text => exact parseText_isComplete s.name text options

/-- A value that looks like a marker is shown as it is, and not replaced in its turn. -/
example : (Problem.mk .unexpectedToken "a.css" (.point .start)
    [("expected", "$\x7bfound\x7d"), ("found", "\x7d$\x7b")]).message =
      "Expected $\x7bfound\x7d but found \x7d$\x7b." := by decide +kernel

end Stylesheet
